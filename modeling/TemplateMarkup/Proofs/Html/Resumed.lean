/-
# A text is read in two parts

Where a text ends clear, reading it and then the text behind it leaves the same as reading both in
one (`readRun_append`), but for names, places and the number of runs: ledgers are compared by
`Ledger.Tallies`, which keeps what is reported and all other counters.

The two readings are in step up to the end of the first text.  There, content that is held back is
added earlier than in one run (`read_addText`), and a lexeme that straddles the end is read as two,
which add to the same draft what the one adds (`Context.CutAt`).
-/
import TemplateMarkup.Proofs.Html.ReadOn
import TemplateMarkup.Proofs.Html.Straddling

namespace TemplateMarkup

/-! ## 1. Ledgers that tally -/

/-- The counters but the number of runs. -/
def Stats.withoutRuns (s : Stats) : Stats := { s with rawTextRuns := 0 }

/-- Ledgers of two runs with settings of their own that have reported the same and counted the same,
runs aside. -/
structure Ledger.Tallies (c c' : Config) (l l' : Ledger) : Prop where
  config_left : l.config = c
  config_right : l'.config = c'
  depth : l.depth = l'.depth
  faults : l.diagnostics.map Diagnostic.fault = l'.diagnostics.map Diagnostic.fault
  stats : l.stats.withoutRuns = l'.stats.withoutRuns

namespace Ledger.Tallies

variable {c c' c'' : Config} {l l' l'' : Ledger}

theorem refl (l : Ledger) : l.Tallies l.config l.config l := ⟨rfl, rfl, rfl, rfl, rfl⟩

theorem symm (h : l.Tallies c c' l') : l'.Tallies c' c l :=
  ⟨h.config_right, h.config_left, h.depth.symm, h.faults.symm, h.stats.symm⟩

theorem trans (h : l.Tallies c c' l') (h' : l'.Tallies c' c'' l'') : l.Tallies c c'' l'' :=
  ⟨h.config_left, h'.config_right, h.depth.trans h'.depth, h.faults.trans h'.faults,
    h.stats.trans h'.stats⟩

theorem report (h : l.Tallies c c' l') (s s' : Span) (fault : Fault) :
    (l.report s fault).Tallies c c' (l'.report s' fault) :=
  ⟨h.config_left, h.config_right, h.depth, congrArg (List.cons fault) h.faults,
    congrArg (fun s : Stats => { s with errors := Count.add s.errors 1 }) h.stats⟩

end Ledger.Tallies

/-- Ledgers that tally. -/
def tallying (c c' : Config) : bareLikeness.Ledgers where
  rel := Ledger.Tallies c c'
  next _ := trivial
  drawn h := ⟨h.config_left, h.config_right, h.depth, h.faults, h.stats⟩
  drawnForHtml h := ⟨h.config_left, h.config_right, h.depth, h.faults, congrArg
    (fun s : Stats => { s with structuralNodes := Count.add s.structuralNodes 1 }) h.stats⟩
  countRun h := ⟨h.config_left, h.config_right, h.depth, h.faults, h.stats⟩
  countChange h := ⟨h.config_left, h.config_right, h.depth, h.faults, congrArg
    (fun s : Stats => { s with contextChanges := Count.add s.contextChanges 1 }) h.stats⟩
  report _ h _ := h.report _ _ _

/-- Content leads to where content stands in the same place. -/
theorem Context.Move.stays {here : Context} {c : Char} {l : Lexeme} (h : Move here c l)
    (hm : l.mark = none) :
    l.next = here ∨ (here.isContent = true ∧ l.next.isContent = true) := by
  cases h <;> first | exact .inl rfl | exact .inr ⟨rfl, rfl⟩ | cases hm

theorem Held.textOf_congr {held held' : Option Held}
    (h : held.map Held.text = held'.map Held.text) : Held.textOf held = Held.textOf held' := by
  cases held with
  | none =>
    cases held' with
    | none => rfl
    | some k => cases h
  | some k =>
    cases held' with
    | none => cases h
    | some k' => exact Option.some.inj h

namespace Assembly

/-- Assemblies of two runs that are the same but for names, places and the number of runs. -/
abbrev Tallies (c c' : Config) (b b' : Assembly) : Prop := b.Like (tallying c c') b'

section Relation

variable {c c' c'' : Config} {b b' b'' : Assembly}

theorem tallies_iff (l : Ledger) : b.Tallies c c' b' ↔ b.ledger.Tallies c c' b'.ledger
    ∧ ({ b with ledger := l } : Assembly).Alike { b' with ledger := l } := by
  constructor
  · intro h
    exact ⟨h.ledger, (h.setLedger (M := bareLedgers) (l := l) rfl).alike⟩
  · rintro ⟨hl, ha⟩
    exact ha.like.setLedger (M := tallying c c') hl

theorem tallies_refl (hb : b.ledger.config = c) : b.Tallies c c b := by
  subst hb
  exact (tallies_iff b.ledger).mpr ⟨.refl _, .refl _⟩

theorem Tallies.symm (h : b.Tallies c c' b') : b'.Tallies c' c b := by
  obtain ⟨hl, ha⟩ := (tallies_iff b.ledger).mp h
  exact (tallies_iff b.ledger).mpr ⟨hl.symm, ha.symm⟩

theorem Tallies.trans (h : b.Tallies c c' b') (h' : b'.Tallies c' c'' b'') :
    b.Tallies c c'' b'' := by
  obtain ⟨hl, ha⟩ := (tallies_iff b.ledger).mp h
  obtain ⟨hl', ha'⟩ := (tallies_iff b.ledger).mp h'
  exact (tallies_iff b.ledger).mpr ⟨hl.trans hl', ha.trans ha'⟩

/-- The same text is read to the same, wherever it stands. -/
theorem Tallies.read {run run' : RawRun} (h : b.Tallies c c' b') {held held' : Option Held}
    (hh : held.map Held.text = held'.map Held.text) (pos pos' : Nat) (t : Text) :
    (b.read run pos held t).Tallies c c' (b'.read run' pos' held' t) :=
  Like.read b pos held t h (anyRuns run run' pos pos')
    ((rel_iff_map_eq fun _ _ => ⟨fun hk => hk.text, fun hk => ⟨hk, trivial⟩⟩).mpr hh)

end Relation

/-! ## 2. Content that is added earlier -/

theorem enter_of_context {b : Assembly} {next : Context} {offset : Nat} (h : b.context = next) :
    b.enter next offset = b := if_pos h

/-- Text that is added in two parts. -/
theorem addText_twice_tallies {c : Config} {b : Assembly} (hb : b.ledger.config = c) (x y : Text)
    (s s' s'' : Span) : ((b.addText x s).addText y s').Tallies c c (b.addText (x ++ y) s'') := by
  obtain ⟨l, id, text, place, place', nodes, hl, htwice, honce⟩ := b.exists_addText_twice x y s s' s''
  rw [htwice, honce]
  refine Like.setContent (tallies_refl (hl.trans hb)) (.cons ?_ (bare_eq_iff.mp rfl))
  show Node.bare _ = Node.bare _
  rw [Node.bare, Node.bare]

/-- Between tags, text joins the text before it. -/
theorem addText_of_out_raw {b : Assembly} (hb : b.context.isContent = true) {id : NodeId}
    {before : Span} {t : Text} {nodes : List Node} (hout : b.out = .raw id before t :: nodes)
    (text : Text) (s : Span) :
    b.addText text s = { b with out := .raw id (before.union s) (t ++ text) :: nodes } := by
  have hc : b.content = .raw id before t :: nodes := (content_of_isContent hb).trans hout
  simp only [addText, hc]
  exact setContent_of_isContent hb _

/-- Behind anything else it is a node of its own. -/
theorem addText_of_out_new {b : Assembly} (hb : b.context.isContent = true)
    (hout : b.out.head?.bind Node.rawText? = none) (text : Text) (s : Span) :
    b.addText text s
      = { b with ledger := b.ledger.drawn, out := .raw b.ledger.ids.next s text :: b.out } := by
  have hc := content_of_isContent hb
  unfold addText
  split
  · next h => simp [← hc, h, Node.rawText?] at hout
  · rw [hc]
    exact setContent_of_isContent (b := { b with ledger := b.ledger.drawn }) hb _

/-- Content may be added before or after a move between contexts that have it in one place. -/
theorem enter_addText {b : Assembly} {next : Context}
    (h : next = b.context ∨ (b.context.isContent = true ∧ next.isContent = true)) (text : Text)
    (s : Span) (offset : Nat) :
    (b.enter next offset).addText text s = (b.addText text s).enter next offset := by
  unfold enter
  rw [addText_context]
  split
  · rfl
  · next hne =>
    rcases h with rfl | ⟨hhere, hnext⟩
    · exact absurd rfl hne
    · by_cases hout : b.out.head?.bind Node.rawText? = none
      · rw [addText_of_out_new hhere hout]
        refine (addText_of_out_new ?_ ?_ text s).trans rfl
        · exact hnext
        · exact hout
      · obtain ⟨t, ht⟩ := Option.ne_none_iff_exists'.mp hout
        obtain ⟨n, hn, ht⟩ := Option.bind_eq_some_iff.mp ht
        obtain ⟨id, before, rfl⟩ := Node.eq_raw_of_rawText? ht
        obtain ⟨nodes, hout⟩ := List.head?_eq_some_iff.mp hn
        rw [addText_of_out_raw hhere hout]
        refine (addText_of_out_raw ?_ ?_ text s).trans rfl
        · exact hnext
        · exact hout

section Reading

variable {c c' : Config} {run run' : RawRun}

/-- The same content is released, wherever it stands. -/
theorem Tallies.release {b b' : Assembly} (h : b.Tallies c c' b') {held held' : Option Held}
    (hh : held.map Held.text = held'.map Held.text) (pos pos' : Nat) :
    (b.release run held pos).Tallies c c' (b'.release run' held' pos') :=
  Like.release h trivial
    ((rel_iff_map_eq fun _ _ => ⟨fun hk => hk.text, fun hk => ⟨hk, trivial⟩⟩).mpr hh)

/-- Text that was added, then what is held back after it. -/
theorem release_addText {a b : Assembly} (hb : b.ledger.config = c) {x : Text} {s : Span}
    (ha : a.Tallies c c (b.addText x s)) {h : Held} {held : Option Held}
    (hh : h.text = x ++ Held.textOf held) (pos pos' : Nat) :
    (a.release run held pos').Tallies c c (b.release run' (some h) pos) := by
  cases held with
  | none =>
    rw [Held.textOf, List.append_nil] at hh
    rw [release, release, hh]
    exact ha.trans ((tallies_refl hb).addText x (anywhere _ _))
  | some k =>
    rw [release, release, hh]
    exact Tallies.trans (Like.addText ha k.text (anywhere _ s))
      (addText_twice_tallies hb x k.text s s _)

/-- **Content may be added before the rest is read**, or held back with what follows. -/
theorem read_addText (b : Assembly) (pos : Nat) (held' : Option Held) (t : Text) :
    ∀ {a : Assembly} {x : Text} {s : Span} {h : Held} {held : Option Held} {pos' : Nat},
      b.ledger.config = c → a.Tallies c c (b.addText x s) → held' = some h →
      h.text = x ++ Held.textOf held →
      (a.read run pos' held t).Tallies c c (b.read run' pos held' t) := by
  induction b, pos, held', t using Assembly.read.induct run' with
  | case1 b pos held' =>
    intro a x s h held pos' hb ha hheld hh
    subst hheld
    rw [read, read]
    exact release_addText hb ha hh pos pos'
  | case2 b pos held' d ds =>
    rename_i l text stop faultStop b₁ hm ih
    intro a x s h held pos' hb ha hheld hh
    have hl : a.context = b.context := by rw [ha.context, addText_context]
    have hstays := (Context.lexeme_move b.context d ds).stays hm
    rw [read_of_content hm, read_of_content (by rw [hl]; exact hm), hl]
    refine ih (x := x) (s := s) ?_ ?_ rfl ?_
    · exact (extends_enter ..).ledger.config.trans
        ((extends_reportLexeme ..).ledger.config.trans hb)
    · rw [enter_addText (by rw [reportLexeme_context]; exact hstays), addText_reportLexeme]
      exact Like.enter (Like.reportLexeme ha (anywhere _ _) l) l.next trivial
    · subst hheld
      rw [Held.text_add_some, hh, List.append_assoc]
      exact congrArg (x ++ ·) (Held.textOf_add held pos' text).symm
  | case3 b pos held' d ds =>
    rename_i l text stop faultStop b₁ m hm ih
    intro a x s h held pos' hb ha hheld hh
    subst hheld
    have hl : a.context = b.context := by rw [ha.context, addText_context]
    rw [read_of_mark hm, read_of_mark (by rw [hl]; exact hm), hl]
    refine Tallies.read (Like.apply (release_addText (x := x) (s := s) ?_ ?_ hh _ _) m l.next text
      (anywhere _ _)) rfl _ _ _
    · exact (extends_reportLexeme ..).ledger.config.trans hb
    · rw [addText_reportLexeme]
      exact Like.reportLexeme ha (anywhere _ _) l

/-- What is held back may be added before the rest is read. -/
theorem read_release {run₂ : RawRun} {b : Assembly} (hb : b.ledger.config = c) (held : Option Held)
    (pos pos₂ pos' : Nat) (t : Text) :
    ((b.release run held pos).read run₂ pos₂ none t).Tallies c c (b.read run' pos' held t) := by
  cases held with
  | none => exact (tallies_refl hb).read rfl _ _ _
  | some k =>
    rw [release]
    refine read_addText b pos' (some k) t hb (tallies_refl ?_) rfl (List.append_nil _).symm
    exact (extends_addText ..).ledger.config.trans hb

/-! ## 3. Lexemes in two parts -/

/-- The name of the open tag does not depend on the context. -/
theorem enter_addTagName (b : Assembly) (next : Context) (offset : Nat) (text : Text) (s : Span) :
    (b.enter next offset).addTagName text s = (b.addTagName text s).enter next offset := by
  unfold addTagName
  rw [enter_tag]
  cases b.tag with
  | none => rfl
  | some tag =>
    unfold enter
    dsimp only
    split <;> rfl

/-- A name that is added in two parts. -/
theorem addTagName_addTagName {b : Assembly} (hb : b.ledger.config = c) (x y : Text)
    (s s' s'' : Span) :
    ((b.addTagName x s).addTagName y s').Tallies c c (b.addTagName (x ++ y) s'') := by
  cases ht : b.tag with
  | none =>
    have hnone (x : Text) (s : Span) : b.addTagName x s = b := by
      unfold addTagName
      rw [ht]
    rw [hnone, hnone, hnone]
    exact tallies_refl hb
  | some tag =>
    simp only [addTagName, ht]
    have htags := (tags_iff tag tag).mpr rfl
    refine Like.setTag (tallies_refl hb) (.some { htags with nameText := ?_, nameLocation := ?_ })
    · exact List.append_assoc ..
    · exact anywhere _ _

section Cut

variable {b b' : Assembly} (h : b.Tallies c c' b') {held held' : Option Held}
  (hh : held.map Held.text = held'.map Held.text) {e d : Char} {es ds : Text} {next : Context}
  {n : Nat} {run₂ : RawRun} (pos pos' : Nat)

include h hh

/-- Content is cut in two. -/
theorem read_cut_content
    (hfirst : b.context.lexeme e es = .content b.context (e :: es).length)
    (hsecond : b.context.lexeme d ds = .content next n)
    (hwhole : b.context.lexeme e (es ++ d :: ds) = .content next ((e :: es).length + n)) :
    ((b.read run pos held (e :: es)).read run₂ 0 none (d :: ds)).Tallies c c'
      (b'.read run' pos' held' (e :: (es ++ d :: ds))) := by
  have htake : (e :: (es ++ d :: ds)).take ((e :: es).length + n) = e :: es ++ (d :: ds).take n :=
    List.take_length_add_append n
  have hdrop : (e :: (es ++ d :: ds)).drop ((e :: es).length + n) = (d :: ds).drop n :=
    List.drop_length_add_append n
  -- both go on from the same context with the same text held back
  have hcontext : b'.context.lexeme e (es ++ d :: ds) = .content next ((e :: es).length + n) := by
    rw [← h.context, hwhole]
  have hearly : ((b.read run pos held (e :: es)).read run₂ 0 none (d :: ds)).Tallies c c
      (b.read run 0 (some (Held.add held pos (e :: es))) (d :: ds)) := by
    rw [read_cons_content hfirst, enter_of_context rfl, List.take_length, List.drop_length, read]
    exact read_release h.ledger.config_left _ _ _ _ _
  refine hearly.trans ?_
  rw [read_cons_content hsecond, read_cons_content hcontext, htake, hdrop]
  refine Tallies.read (Like.enter h next trivial) ?_ _ _ _
  rw [Option.map_some, Option.map_some, Held.text_add_some, Held.textOf_add, Held.textOf_add,
    Held.textOf_congr hh, List.append_assoc]

/-- A mark is cut in two. -/
theorem read_cut_mark {m : Mark} {between : Context}
    (hfirst : b.context.lexeme e es = .marking m between (e :: es).length)
    (hsecond : between.lexeme d ds = .marking m next n)
    (hwhole : b.context.lexeme e (es ++ d :: ds) = .marking m next ((e :: es).length + n))
    (hjoin : ∀ (a : Assembly) (x y : Text) (s s' s'' : Span), a.ledger.config = c →
      a.context = b.context → (a.apply m between x s).context = between
        ∧ ((a.apply m between x s).apply m next y s').Tallies c c (a.apply m next (x ++ y) s'')) :
    ((b.read run pos held (e :: es)).read run₂ 0 none (d :: ds)).Tallies c c'
      (b'.read run' pos' held' (e :: (es ++ d :: ds))) := by
  have htake : (e :: (es ++ d :: ds)).take ((e :: es).length + n) = e :: es ++ (d :: ds).take n :=
    List.take_length_add_append n
  have hdrop : (e :: (es ++ d :: ds)).drop ((e :: es).length + n) = (d :: ds).drop n :=
    List.drop_length_add_append n
  have hcontext : b'.context.lexeme e (es ++ d :: ds) = .marking m next ((e :: es).length + n) := by
    rw [← h.context, hwhole]
  have hrel : (b.release run held pos).Tallies c c' (b'.release run' held' pos') :=
    h.release hh pos pos'
  have hjoined (s s' s'' : Span) := hjoin (b.release run held pos) (e :: es) ((d :: ds).take n)
    s s' s'' hrel.ledger.config_left (release_context ..)
  rw [read_cons_mark hfirst, List.take_length, List.drop_length, read, release,
    read_cons_mark (by rw [(hjoined _ default default).1, hsecond]),
    read_cons_mark hcontext, htake, hdrop, release]
  refine Tallies.read ?_ rfl _ _ _
  exact Tallies.trans (hjoined _ _ default).2 (Like.apply hrel m next _ (anywhere _ _))

omit hh in
/-- **A lexeme that straddles the end of a text is read as two.** -/
theorem read_cut (hh : held.map Held.text = held'.map Held.text)
    (hcut : b.context.CutAt (es.length + 1) (b.context.lexeme e es)
      ((b.context.lexeme e es).next.lexeme d ds) (b.context.lexeme e (es ++ d :: ds))) :
    ((b.read run pos held (e :: es)).read run₂ 0 none (d :: ds)).Tallies c c'
      (b'.read run' pos' held' (e :: (es ++ d :: ds))) := by
  generalize hfirst : b.context.lexeme e es = first at hcut
  generalize hsecond : first.next.lexeme d ds = second at hcut
  generalize hwhole : b.context.lexeme e (es ++ d :: ds) = whole at hcut
  generalize hhere : b.context = here at hcut
  cases hcut with
  | content next n =>
    subst hhere
    exact read_cut_content h hh pos pos' hfirst hsecond hwhole
  | name n =>
    refine read_cut_mark h hh pos pos' hfirst hsecond hwhole fun a x y s s' s'' ha _ => ?_
    refine ⟨enter_context .., ?_⟩
    simp only [apply]
    rw [enter_addTagName, enter_of_context (enter_context ..)]
    exact Like.enter (addTagName_addTagName ha x y s s' s'') (.tagName .static) trivial
  | skip n hd =>
    refine read_cut_mark h hh pos pos' hfirst hsecond hwhole fun a x y s s' s'' ha hc => ?_
    have hskip (text : Text) (s : Span) : a.apply .skip here text s = a := by
      simp only [apply, hd, Bool.false_and, Bool.false_eq_true, if_false]
      exact enter_of_context (hc.trans hhere)
    rw [hskip, hskip, hskip]
    exact ⟨hc.trans hhere, tallies_refl ha⟩

end Cut

/-! ## 4. Runs -/

/-- **Reading goes on behind a text that ends clear as if there had been no end.** -/
theorem read_append {d : Char} {ds : Text} {run₂ : RawRun} (b : Assembly) (pos : Nat)
    (held : Option Held) (t : Text) : ∀ {b' : Assembly} {held' : Option Held} {pos' : Nat},
      b.Tallies c c' b' → held.map Held.text = held'.map Held.text → t.endsClear = true →
      ((b.read run pos held t).read run₂ 0 none (d :: ds)).Tallies c c'
        (b'.read run' pos' held' (t ++ d :: ds)) := by
  induction b, pos, held, t using Assembly.read.induct run with
  | case1 b pos held =>
    intro b' held' pos' h hh _
    rw [read, List.nil_append]
    have hearly : ((b.release run held pos).read run₂ 0 none (d :: ds)).Tallies c c
        (b.read run' pos' held (d :: ds)) := read_release h.ledger.config_left held pos 0 pos' _
    exact hearly.trans (h.read hh _ _ _)
  | case2 b pos held e es =>
    rename_i l text stop faultStop b₁ hm ih
    intro b' held' pos' h hh ht
    rcases Context.resumes ht d ds b.context with hsame | hcut
    · have hl : b'.context.lexeme e (es ++ d :: ds) = l := by rw [← h.context, hsame]
      have hwidth : l.width ≤ (e :: es).length := b.context.width_lexeme_le e es
      have hm' : (b'.context.lexeme e (es ++ d :: ds)).mark = none := hl ▸ hm
      rw [read_of_content hm, List.cons_append, read_of_content hm', hl, ← List.cons_append,
        List.take_append_of_le_length hwidth, List.drop_append_of_le_length hwidth]
      refine ih (Like.enter (Like.reportLexeme h (anywhere _ _) l) l.next trivial) ?_
        (Text.endsClear_drop ht _)
      rw [Option.map_some, Option.map_some, Held.textOf_add, Held.textOf_add, Held.textOf_congr hh]
    · exact read_cut h pos pos' hh hcut
  | case3 b pos held e es =>
    rename_i l text stop faultStop b₁ m hm ih
    intro b' held' pos' h hh ht
    rcases Context.resumes ht d ds b.context with hsame | hcut
    · have hl : b'.context.lexeme e (es ++ d :: ds) = l := by rw [← h.context, hsame]
      have hwidth : l.width ≤ (e :: es).length := b.context.width_lexeme_le e es
      have hreported (s s' : Span) : (b.reportLexeme s l).Tallies c c' (b'.reportLexeme s' l) :=
        Like.reportLexeme h (anywhere _ _) l
      have hm' : (b'.context.lexeme e (es ++ d :: ds)).mark = some m := hl ▸ hm
      rw [read_of_mark hm, List.cons_append, read_of_mark hm', hl, ← List.cons_append,
        List.take_append_of_le_length hwidth, List.drop_append_of_le_length hwidth]
      exact ih (Like.apply ((hreported _ _).release hh _ _) m l.next _ (anywhere _ _)) rfl
        (Text.endsClear_drop ht _)
    · exact read_cut h pos pos' hh hcut

/-- **Two runs are read as one**, where the first ends clear. -/
theorem readRun_append {b b' : Assembly} (h : b.Tallies c c' b') {first second whole : RawRun}
    (hfirst : first.text.endsClear = true) (hwhole : whole.text = first.text ++ second.text) :
    ((b.readRun first).readRun second).Tallies c c' (b'.readRun whole) := by
  have hcount : ({ b with ledger := b.ledger.countRun } : Assembly).Tallies c c'
      { b' with ledger := b'.ledger.countRun } := Like.setLedger h ((tallying c c').countRun h.ledger)
  generalize hB : ({ b with ledger := b.ledger.countRun } : Assembly) = B at hcount
  have hread : (B.read first 0 none first.text).ledger.config = c :=
    (extends_read ..).ledger.config.trans hcount.ledger.config_left
  -- between the runs nothing happens but a count
  have hmiddle : ({ b.readRun first with ledger := (b.readRun first).ledger.countRun }
      : Assembly).Tallies c c (B.read first 0 none first.text) := by
    subst hB
    refine { tallies_refl hread with ledger := ?_, offset := trivial }
    exact ⟨hread, hread, rfl, rfl, rfl⟩
  have hboth : ((B.read first 0 none first.text).read second 0 none second.text).Tallies c c'
      (({ b' with ledger := b'.ledger.countRun } : Assembly).read whole 0 none whole.text) := by
    rw [hwhole]
    cases second.text with
    | nil =>
      rw [read, release, List.append_nil]
      exact hcount.read rfl 0 0 first.text
    | cons d ds => exact read_append B 0 none first.text hcount rfl hfirst
  exact { (hmiddle.read rfl 0 0 second.text).trans hboth with offset := trivial }

end Reading

end Assembly

end TemplateMarkup
