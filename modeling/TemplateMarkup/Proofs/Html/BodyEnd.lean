/-
# Where the body of an element ends

The body of an element such as `script` is text up to the element's own close tag, which is looked
for in the raw text of each run: `</`, the name in any letter case, and a character that ends names
or the end of the run (`Context.EndsAt`).  `Assembly.leaves_iff_closeTag` says for a list of text,
prints, calls without parameters and bindings that the body is left if and only if some run has such
a place, that the close tag begins at the first place of the first such run, and that everything
before it is content.

The moments of a run are followed one by one.  `Moment.StaysIn` is the part of a run in which the
context has not changed; because every moment has at most one next moment, a run that stays in the
body up to the end leaves it nowhere (`Moment.StaysIn.or_reaches`).
-/
import TemplateMarkup.Proofs.Html.Durable
import TemplateMarkup.Proofs.Html.Moments
import TemplateMarkup.Proofs.Html.Verbatim
import TemplateMarkup.Proofs.Template.Words

namespace TemplateMarkup

/-! ## 1. Close tags in text -/

/-- The letters of an element's name, in any case, are those of a tag name. -/
theorem Rcdata.inTagName_of_map_toLower {e : Rcdata} {name : Text}
    (h : name.map Char.toLower = e.name.toList) :
    name.all inTagName = true ∧ ∃ c cs, name = c :: cs ∧ startsTagName c = true := by
  have hlower : e.name.toList.all Char.isLower = true := by cases e <;> decide
  have hletter : ∀ c ∈ name, c.toLower.isLower = true := by
    intro c hc
    refine List.all_eq_true.mp hlower _ ?_
    rw [← h]
    exact List.mem_map_of_mem hc
  refine ⟨List.all_eq_true.mpr fun c hc => inTagName_of_toLower rfl (hletter c hc), ?_⟩
  cases name with
  | nil => cases e <;> cases h
  | cons c cs => exact ⟨c, cs, rfl, isAlpha_of_toLower rfl (hletter c List.mem_cons_self)⟩

theorem Lexeme.closesElement_of_endsAt {e : Rcdata} {t : Text}
    (h : Context.EndsAt t (.rcdata e)) : closesElement e t = true := by
  obtain ⟨name, rest, rfl, hname, hrest⟩ := h
  have hlower : e.name.toList.map Char.toLower = e.name.toList := by cases e <;> decide
  have hsame : Text.sameLetters e.name.toList name = true :=
    Text.sameLetters_of_map_toLower (hlower.trans hname.symm)
  have hfound := Text.afterAnyCase?_append (beq_iff_eq.mp hsame) rest
  unfold closesElement
  simp only [Text.after?, if_true, Option.bind_some, hfound, List.nil_append]
  cases rest with
  | nil => rfl
  | cons c cs => exact hrest c rfl

theorem Lexeme.closesElement_iff {e : Rcdata} {t : Text} :
    closesElement e t = true ↔ Context.EndsAt t (.rcdata e) :=
  ⟨endsAt_of_closesElement, closesElement_of_endsAt⟩

/-- The text is `u` and then, for the first time, a close tag of the element. -/
structure Rcdata.FirstClose (e : Rcdata) (t u v : Text) : Prop where
  cut : t = u ++ v
  closes : Context.EndsAt v (.rcdata e)
  first : ∀ u' v', t = u' ++ v' → Context.EndsAt v' (.rcdata e) → u.length ≤ u'.length

/-- The search for a close tag finds the first one. -/
theorem Rcdata.FirstClose.of_seek {e : Rcdata} {t : Text} {n : Nat}
    (h : Text.seek (Lexeme.closesElement e) t = some n) :
    e.FirstClose t (t.take n) (t.drop n) := by
  obtain ⟨hcloses, hn⟩ := Text.of_seek_eq_some h
  refine ⟨(List.take_append_drop n t).symm, Lexeme.closesElement_iff.mp hcloses, ?_⟩
  intro u v ht hv
  rw [List.length_take]
  refine Nat.le_trans (Nat.min_le_left ..) (Nat.le_of_not_lt fun hlt => ?_)
  have hnot := Text.not_of_seek_lt h u.length hlt
  rw [ht, List.drop_left, Lexeme.closesElement_iff.mpr hv] at hnot
  cases hnot

theorem Context.spares_of_seek {e : Rcdata} {t : Text}
    (h : Text.seek (Lexeme.closesElement e) t = none) : (Context.rcdata e).Spares t := by
  induction t with
  | nil =>
    rintro s hs hend
    obtain ⟨name, rest, rfl, -⟩ := hend
    cases List.suffix_nil.mp hs
  | cons c cs ih =>
    rw [Text.seek] at h
    split at h
    · cases h
    · next hc =>
      rintro s hs hend
      rcases List.suffix_cons_iff.mp hs with rfl | hs
      · exact hc (Lexeme.closesElement_of_endsAt hend)
      · exact ih (Option.map_eq_none_iff.mp h) s hs hend

/-- A text that does not spare the close tag has a first one. -/
theorem Context.exists_firstClose {e : Rcdata} {t : Text} (h : ¬ (Context.rcdata e).Spares t) :
    ∃ n, Text.seek (Lexeme.closesElement e) t = some n
      ∧ e.FirstClose t (t.take n) (t.drop n) := by
  cases hseek : Text.seek (Lexeme.closesElement e) t with
  | none => exact absurd (spares_of_seek hseek) h
  | some n => exact ⟨n, rfl, .of_seek hseek⟩

/-! ## 2. Staying in a context -/

namespace Moment

/-- The run goes on from one moment to the other in one context. -/
abbrev StaysIn (here : Context) : Moment → Moment → Prop :=
  Relation.ReflTransGen fun m m' => m.next = some m' ∧ m'.assembly.context = here

/-- A moment at which nodes are fed. -/
def isFeeding : Moment → Bool
  | closing .. | closed _ => false
  | _ => true

variable {here : Context}

theorem StaysIn.reaches {m m' : Moment} (h : StaysIn here m m') : Reaches m m' := by
  induction h with
  | refl => exact .refl
  | tail _ hn ih => exact ih.tail hn.1

theorem StaysIn.context {m m' : Moment} (h : StaysIn here m m') (hm : m.assembly.context = here) :
    m'.assembly.context = here := by
  induction h with
  | refl => exact hm
  | tail _ hn _ => exact hn.2

/-- **There is one way on**: a moment of the run lies on the part that stays, or after it. -/
theorem StaysIn.or_reaches {m last x : Moment} (h : StaysIn here m last) (hx : Reaches m x) :
    StaysIn here m x ∨ Reaches last x := by
  induction h using Relation.ReflTransGen.head_induction_on with
  | refl => exact .inr hx
  | head hn _ ih =>
    rcases Relation.ReflTransGen.cases_head hx with rfl | ⟨m', hn', hx'⟩
    · exact .inl .refl
    · obtain rfl := Option.some.inj (hn.1.symm.trans hn')
      exact (ih hx').imp_left fun hstays => .head hn hstays

/-- What is closed at the end is not fed any more. -/
theorem isFeeding_of_reaches {m x : Moment} (h : Reaches m x) (hm : m.isFeeding = false) :
    x.isFeeding = false := by
  induction h with
  | refl => exact hm
  | @tail m' x _ hn ih =>
    cases m' with
    | closing b draft stop => cases draft <;> cases hn <;> rfl
    | closed b => cases hn
    | _ => cases ih

/-- After the last node nothing more is fed. -/
theorem eq_of_isFeeding {b : Assembly} {x : Moment} (h : Reaches (.between b none []) x)
    (hx : x.isFeeding = true) : x = .between b none [] := by
  rcases Relation.ReflTransGen.cases_head h with rfl | ⟨m, hn, hmx⟩
  · rfl
  · have hm : m.isFeeding = false := by
      cases hn
      rfl
    rw [isFeeding_of_reaches hmx hm] at hx
    cases hx

end Moment

/-- At some moment at which the nodes are fed the context is another one. -/
def Assembly.Leaves (b : Assembly) (nodes : List Node) : Prop :=
  ∃ m : Moment, Moment.Reaches (.between b none nodes) m ∧ m.isFeeding = true
    ∧ m.assembly.context ≠ b.context

/-- What stays in its context up to the last node does not leave it. -/
theorem Assembly.not_leaves {b b' : Assembly} {nodes : List Node}
    (h : Moment.StaysIn b.context (.between b none nodes) (.between b' none [])) :
    ¬ b.Leaves nodes := by
  rintro ⟨m, hm, hfeeding, hne⟩
  rcases h.or_reaches hm with hstays | hlast
  · exact hne (hstays.context rfl)
  · rw [Moment.eq_of_isFeeding hlast hfeeding] at hne
    exact hne (h.context rfl)

/-! ## 3. Lists without control flow -/

/-- Raw text, a print, a call without parameters or a binding to an expression. -/
def Node.isFlat : Node → Bool
  | .raw .. | .print .. => true
  | .call _ _ _ params => params.isEmpty
  | .binding _ _ _ (.expr _) => true
  | _ => false

/-- The nodes without raw text that is empty: it leaves no node behind. -/
def withoutEmpty (nodes : List Node) : List Node := nodes.filter fun n => n.rawText? ≠ some []

theorem withoutEmpty_append (nodes later : List Node) :
    withoutEmpty (nodes ++ later) = withoutEmpty nodes ++ withoutEmpty later :=
  List.filter_append ..

/-- The run has been collected from raw text nodes. -/
structure RawRun.Of (run : RawRun) (raws : List Node) : Prop where
  texts : raws.map Node.rawText? = (run.pieces.map Piece.text).map some
  places : raws.map Node.location = run.pieces.map Piece.location

theorem RawRun.of_single {n : Node} {t : Text} (hn : n.rawText? = some t) :
    (RawRun.single t n.location).Of [n] :=
  ⟨by rw [List.map_singleton, hn]; rfl, rfl⟩

theorem RawRun.Of.push {run : RawRun} {raws : List Node} (h : run.Of raws) {n : Node} {t : Text}
    (hn : n.rawText? = some t) : (run.push t n.location).Of (raws ++ [n]) := by
  have hpieces : (run.push t n.location).pieces
      = run.pieces ++ [{ text := t, location := n.location }] := by
    simp [RawRun.push, RawRun.pieces]
  refine ⟨?_, ?_⟩
  · rw [hpieces, List.map_append, h.texts, List.map_singleton, hn, List.map_append, List.map_append]
    rfl
  · rw [hpieces, List.map_append, h.places, List.map_append]
    rfl

/-- What is not empty is all the text. -/
theorem RawRun.Of.withoutEmpty {run : RawRun} {raws : List Node} (h : run.Of raws) :
    ∃ texts : List Text, (withoutEmpty raws).map Node.rawText? = texts.map some
      ∧ texts.flatten = run.text := by
  have htext : run.text = (run.pieces.map Piece.text).flatten := List.flatMap_def ..
  rw [htext]
  have htexts := h.texts
  generalize run.pieces.map Piece.text = texts at htexts
  clear h htext
  induction raws generalizing texts with
  | nil =>
    cases texts with
    | nil => exact ⟨[], rfl, rfl⟩
    | cons => cases htexts
  | cons n raws ih =>
    cases texts with
    | nil => cases htexts
    | cons t texts =>
      obtain ⟨hn, hrest⟩ := List.cons_eq_cons.mp htexts
      obtain ⟨kept, hkept, hflat⟩ := ih _ hrest
      unfold TemplateMarkup.withoutEmpty at hkept ⊢
      cases t with
      | nil =>
        refine ⟨kept, ?_, by rw [hflat]; rfl⟩
        rw [List.filter_cons_of_neg (by simp [hn]), hkept]
      | cons c cs =>
        refine ⟨(c :: cs) :: kept, ?_, by rw [List.flatten_cons, hflat]; rfl⟩
        rw [List.filter_cons_of_pos (by simp [hn]), List.map_cons, hn, hkept]
        rfl

/-- The run, if there is one, has been collected from the nodes. -/
def Gathered (raws : List Node) : Option RawRun → Prop
  | none => raws = []
  | some run => run.Of raws

theorem lexedRuns_append_raws {nodes : List Node} : ∀ {raws : List Node} {texts : List Text}
    {s : Text}, raws.map Node.rawText? = texts.map some →
    lexedRuns true (some s) (raws ++ nodes) = lexedRuns true (some (s ++ texts.flatten)) nodes
  | [], [], s, _ => by rw [List.flatten_nil, List.append_nil, List.nil_append]
  | n :: raws, t :: texts, s, h => by
    obtain ⟨hn, hraws⟩ := List.cons_eq_cons.mp h
    rw [List.cons_append, lexedRuns]
    simp only [hn, if_true]
    rw [lexedRuns_append_raws hraws, List.flatten_cons, List.append_assoc]

theorem Gathered.lexedRuns {raws nodes : List Node} {run : Option RawRun} (h : Gathered raws run)
    (hn : ∀ n ∈ nodes.head?, n.rawText? = none) :
    lexedRuns true none (raws ++ nodes)
      = (run.map RawRun.text).toList ++ lexedRuns true none nodes := by
  have hnodes (s : Option Text) :
      TemplateMarkup.lexedRuns true s nodes
        = s.toList ++ TemplateMarkup.lexedRuns true none nodes := by
    cases nodes with
    | nil => simp [TemplateMarkup.lexedRuns]
    | cons n nodes => simp [TemplateMarkup.lexedRuns, hn n rfl]
  cases run with
  | none =>
    obtain rfl : raws = [] := h
    rfl
  | some run =>
    have htext : run.text = (run.pieces.map Piece.text).flatten := List.flatMap_def ..
    have htexts := RawRun.Of.texts h
    rw [Option.map_some, ← hnodes, htext]
    generalize run.pieces.map Piece.text = texts at htexts
    cases raws with
    | nil =>
      cases texts with
      | nil => cases h.places
      | cons => cases htexts
    | cons n raws =>
      cases texts with
      | nil => cases htexts
      | cons t texts =>
        obtain ⟨hn, hraws⟩ := List.cons_eq_cons.mp htexts
        rw [List.cons_append, TemplateMarkup.lexedRuns]
        simp only [hn]
        rw [lexedRuns_append_raws hraws, List.flatten_cons]

/-- A node that is neither text nor control flow parts the runs. -/
theorem Gathered.lexedRuns_cons {raws nodes : List Node} {run : Option RawRun} {n : Node}
    (h : Gathered raws run) (ht : n.rawText? = none) (hn : n.isFlat = true) :
    TemplateMarkup.lexedRuns true none (raws ++ n :: nodes)
      = (run.map RawRun.text).toList ++ TemplateMarkup.lexedRuns true none nodes := by
  have hnone : n.lexedRuns true = [] := by
    cases n with
    | flow => cases hn
    | _ => rfl
  rw [h.lexedRuns (by rintro m ⟨⟩; exact ht), TemplateMarkup.lexedRuns]
  simp only [ht, hnone]
  rfl

/-! ## 4. Content of the body -/

namespace Assembly

variable {e : Rcdata} {b : Assembly}

/-- **A run that spares the close tag is content.** -/
theorem readRun_receives_raws {run : RawRun} {raws : List Node} (hb : b.context = .rcdata e)
    (hr : run.Of raws) (hs : (Context.rcdata e).Spares run.text) :
    b.Receives (withoutEmpty raws) (b.readRun run) := by
  obtain ⟨texts, hraws, hflat⟩ := hr.withoutEmpty
  by_cases hne : run.text = []
  · have hnone : withoutEmpty raws = [] := by
      rw [List.eq_nil_iff_forall_not_mem]
      intro n hn
      have htext : n.rawText? ∈ texts.map some := hraws ▸ List.mem_map_of_mem hn
      obtain ⟨t, ht, hnt⟩ := List.mem_map.mp htext
      obtain rfl := List.flatten_eq_nil_iff.mp (hflat.trans hne) t ht
      simpa [← hnt] using (List.mem_filter.mp hn).2
    rw [hnone]
    unfold readRun
    dsimp only
    rw [hne, read, release]
    exact Receives.setOffset (l := b.ledger.countRun) (Receives.refl _) rfl rfl rfl _
  · have hread := readRun_receives (b := b) (by rw [hb]; rfl) hne (by rw [hb]; exact hs)
    rw [← hflat] at hread
    refine { hread with content := hread.content.pieces hraws ?_ }
    rintro rfl
    exact hne hflat.symm

theorem readCollected_receives_raws {run : Option RawRun} {raws : List Node}
    (hb : b.context = .rcdata e) (hr : Gathered raws run)
    (hs : ∀ t ∈ (run.map RawRun.text).toList, (Context.rcdata e).Spares t) :
    b.Receives (withoutEmpty raws) (b.readCollected run) := by
  cases run with
  | none =>
    obtain rfl : raws = [] := hr
    exact .refl b
  | some run => exact readRun_receives_raws hb hr (hs run.text (by simp))

/-- A node that is neither text nor control flow is content. -/
theorem feedNode_receives_flat {n : Node} (hb : b.context = .rcdata e) (ht : n.rawText? = none)
    (hn : n.isFlat = true) : b.Receives [n] (feedNode b n) := by
  have henclosed : b.context.isEnclosed = true := by
    rw [hb]
    rfl
  cases n with
  | print =>
    rw [feedNode]
    exact place_receives henclosed rfl (.print .done) _
    all_goals simp
  | call _ _ _ params =>
    obtain rfl : params = [] := List.isEmpty_iff.mp hn
    rw [feedNode, rewriteParams]
    exact place_receives henclosed rfl (.call .done) _
  | binding _ _ _ value =>
    cases value with
    | expr =>
      rw [feedNode, rewriteValue]
      exact place_receives henclosed rfl (.binding .done) _
    | content => cases hn
  | raw => cases ht
  | _ => cases hn

end Assembly

namespace Moment

variable {e : Rcdata} {b : Assembly}

/-- A lexeme of content is one step. -/
theorem next_content {c : Char} {cs : Text} {width : Nat} (run : RawRun) (pos : Nat)
    (held : Option Held) (later : Option RawRun) (nodes : List Node)
    (h : b.context.lexeme c cs = Lexeme.content b.context width) :
    (reading b run pos held (c :: cs) later nodes).next
      = some (.reading b run (pos + Text.size ((c :: cs).take width))
          (some (Held.add held pos ((c :: cs).take width))) ((c :: cs).drop width) later
          nodes) := by
  simp only [next, lexing, h, Lexeme.content, Assembly.reportLexeme, Assembly.enter, if_true]

/-- A lexeme that is a mark is one step, and the content before it has been added. -/
theorem next_mark {run : RawRun} {pos : Nat} {held : Option Held} {c : Char} {cs : Text}
    {later : Option RawRun} {nodes : List Node} {mark : Mark} {here : Context} {width : Nat}
    (h : b.context.lexeme c cs = Lexeme.marking mark here width) :
    (reading b run pos held (c :: cs) later nodes).next
      = some (.marked (b.release run held pos) run pos (Lexeme.marking mark here width) mark
          (c :: cs) later nodes) := by
  simp only [next, lexing, h, Lexeme.marking, Assembly.reportLexeme]

/-- A run is read before a node that is not text, and at the end. -/
theorem next_collected {run : RawRun} {nodes : List Node}
    (hn : ∀ n ∈ nodes.head?, n.rawText? = none) :
    (between b (some run) nodes).next = some (begin b run none nodes) := by
  cases nodes with
  | nil => rfl
  | cons n nodes => simp only [next, hn n rfl]

/-- Text that spares the close tag is read in the body. -/
theorem staysIn_read {run : RawRun} {t : Text} {later : Option RawRun} {nodes : List Node}
    (hb : b.context = .rcdata e) (hs : (Context.rcdata e).Spares t) :
    StaysIn (.rcdata e) (.reading b run 0 none t later nodes)
      (.between { b.read run 0 none t with offset := run.locateEnd run.text.size } later
        nodes) := by
  cases t with
  | nil =>
    rw [Assembly.read]
    exact .single ⟨rfl, hb⟩
  | cons c cs =>
    have hlexeme : b.context.lexeme c cs = Lexeme.content b.context (c :: cs).length :=
      Context.lexeme_of_spares (by rw [hb]; rfl) (by rw [hb]; exact hs)
    have hread : b.read run 0 none (c :: cs)
        = b.release run (some (Held.add none 0 (c :: cs))) (0 + Text.size (c :: cs)) := by
      rw [Assembly.read_cons_content hlexeme, Assembly.enter, if_pos rfl, List.take_length,
        List.drop_length, Assembly.read]
    rw [hread]
    refine .head ⟨next_content run 0 none later nodes hlexeme, hb⟩ (.single ⟨?_, ?_⟩)
    · rw [List.take_length, List.drop_length]
      rfl
    · exact (Assembly.release_context ..).trans hb

/-- What has been collected is read in the body, if it spares the close tag. -/
theorem staysIn_readCollected {run : Option RawRun} {nodes : List Node} (hb : b.context = .rcdata e)
    (hn : ∀ n ∈ nodes.head?, n.rawText? = none)
    (hs : ∀ t ∈ (run.map RawRun.text).toList, (Context.rcdata e).Spares t) :
    StaysIn (.rcdata e) (.between b run nodes) (.between (b.readCollected run) none nodes) := by
  cases run with
  | none => exact .refl
  | some run =>
    exact .head ⟨next_collected hn, hb⟩
      (staysIn_read (b := { b with ledger := b.ledger.countRun }) hb (hs run.text (by simp)))

/-- A node that is neither text nor control flow is fed in one step. -/
theorem staysIn_feedNode {n : Node} (nodes : List Node) (hb : b.context = .rcdata e)
    (ht : n.rawText? = none) (hn : n.isFlat = true) :
    StaysIn (.rcdata e) (.between b none (n :: nodes)) (.between (feedNode b n) none nodes) := by
  refine .single ⟨?_, (Assembly.feedNode_receives_flat hb ht hn).context.trans hb⟩
  cases n with
  | raw => cases ht
  | flow => cases hn
  | _ => rfl

end Moment

/-! ## 5. The first run with a close tag -/

/-- **Nodes are cut at the first run that holds a close tag of the element**: those before the run,
those it has been collected from, and those after it. -/
structure BodyCut (e : Rcdata) (nodes before raws : List Node) (run : RawRun)
    (later : List Node) : Prop where
  cut : nodes = before ++ raws ++ later
  collected : run.Of raws
  runs : lexedRuns true none nodes
    = lexedRuns true none before ++ run.text :: lexedRuns true none later
  spared : ∀ t ∈ lexedRuns true none before, (Context.rcdata e).Spares t
  closes : ¬ (Context.rcdata e).Spares run.text
  next : ∀ n ∈ later.head?, n.rawText? = none

namespace BodyCut

variable {e : Rcdata} {nodes before raws later : List Node} {run : RawRun}

/-- Right at the run. -/
theorem here (hr : run.Of raws) (hs : ¬ (Context.rcdata e).Spares run.text)
    (hn : ∀ n ∈ later.head?, n.rawText? = none) : BodyCut e (raws ++ later) [] raws run later where
  cut := rfl
  collected := hr
  runs := (show Gathered raws (some run) from hr).lexedRuns hn
  spared := nofun
  closes := hs
  next := hn

/-- After a run that spares the close tag, and a node. -/
theorem after {raws' : List Node} {run' : Option RawRun} {n : Node}
    (h : BodyCut e nodes before raws run later) (hr : Gathered raws' run')
    (hs : ∀ t ∈ (run'.map RawRun.text).toList, (Context.rcdata e).Spares t)
    (ht : n.rawText? = none) (hn : n.isFlat = true) :
    BodyCut e (raws' ++ n :: nodes) (raws' ++ n :: before) raws run later where
  cut := by
    rw [h.cut]
    simp only [List.append_assoc, List.cons_append]
  collected := h.collected
  runs := by rw [hr.lexedRuns_cons ht hn, hr.lexedRuns_cons ht hn, h.runs, List.append_assoc]
  spared := by
    rw [hr.lexedRuns_cons ht hn]
    exact fun t h' => (List.mem_append.mp h').elim (hs t) (h.spared t)
  closes := h.closes
  next := h.next

end BodyCut

theorem withoutEmpty_cons {n : Node} (h : n.rawText? = none) (nodes : List Node) :
    withoutEmpty (n :: nodes) = n :: withoutEmpty nodes :=
  List.filter_cons_of_pos (by simp [h])

namespace Moment

variable {e : Rcdata} {b : Assembly}

/-- Text goes to the run that is being collected. -/
theorem next_collecting {n : Node} {t : Text} (hj : b.ledger.config.joinText = true)
    (ht : n.rawText? = some t) {raws : List Node} {run : Option RawRun} (hr : Gathered raws run)
    (nodes : List Node) :
    ∃ run', (between b run (n :: nodes)).next = some (.between b (some run') nodes)
      ∧ run'.Of (raws ++ [n]) := by
  cases run with
  | none =>
    obtain rfl : raws = [] := hr
    exact ⟨_, by simp only [next, ht, collecting], RawRun.of_single ht⟩
  | some run => exact ⟨_, by simp only [next, ht, collecting, hj, if_true], RawRun.Of.push hr ht⟩

/-- A run that has been collected and holds a close tag is the one the nodes are cut at. -/
theorem staysIn_begin {raws nodes : List Node} {run : Option RawRun} (hb : b.context = .rcdata e)
    (hr : Gathered raws run) (hn : ∀ n ∈ nodes.head?, n.rawText? = none)
    (hs : ¬ ∀ t ∈ (run.map RawRun.text).toList, (Context.rcdata e).Spares t) :
    ∃ run', BodyCut e (raws ++ nodes) [] raws run' nodes
      ∧ StaysIn (.rcdata e) (.between b run nodes) (begin b run' none nodes) := by
  cases run with
  | none => exact absurd (by rintro t ⟨⟩) hs
  | some run => exact ⟨run, .here hr (by simpa using hs) hn, .single ⟨next_collected hn, hb⟩⟩

/-- **Reading stays in the body up to the first run with a close tag of the element**, or up to the
end if there is no such run. -/
theorem staysIn_bodyCut : ∀ (nodes : List Node) {b : Assembly} (run : Option RawRun)
    (raws : List Node), b.context = .rcdata e → b.ledger.config.joinText = true →
    Gathered raws run → (∀ n ∈ nodes, n.isFlat = true) →
    (∃ b', StaysIn (.rcdata e) (.between b run nodes) (.between b' none [])
      ∧ ∀ t ∈ lexedRuns true none (raws ++ nodes), (Context.rcdata e).Spares t)
    ∨ ∃ before raws' run' later b', BodyCut e (raws ++ nodes) before raws' run' later
      ∧ StaysIn (.rcdata e) (.between b run nodes) (begin b' run' none later)
      ∧ b.Receives (withoutEmpty before) b'
  | [], b, run, raws, hb, _, hr, _ => by
    have hhead : ∀ n ∈ ([] : List Node).head?, n.rawText? = none := by
      rintro n ⟨⟩
    by_cases hs : ∀ t ∈ (run.map RawRun.text).toList, (Context.rcdata e).Spares t
    · refine .inl ⟨_, staysIn_readCollected hb hhead hs, ?_⟩
      rw [hr.lexedRuns hhead]
      simpa [lexedRuns] using hs
    · obtain ⟨run', hcut, hstays⟩ := staysIn_begin hb hr hhead hs
      exact .inr ⟨[], raws, run', [], b, hcut, hstays, .refl b⟩
  | n :: nodes, b, run, raws, hb, hj, hr, hn => by
    obtain ⟨hflat, hnodes⟩ := List.forall_mem_cons.mp hn
    cases ht : n.rawText? with
    | some t =>
      obtain ⟨run', hnext, hr'⟩ := next_collecting hj ht hr nodes
      have ih := staysIn_bodyCut nodes (some run') (raws ++ [n]) hb hj hr' hnodes
      rw [List.append_assoc, List.singleton_append] at ih
      rcases ih with ⟨b', hstays, hs⟩ | ⟨before, raws', run'', later, b', hcut, hstays, hrec⟩
      · exact .inl ⟨b', .head ⟨hnext, hb⟩ hstays, hs⟩
      · exact .inr ⟨before, raws', run'', later, b', hcut, .head ⟨hnext, hb⟩ hstays, hrec⟩
    | none =>
      have hhead : ∀ m ∈ (n :: nodes).head?, m.rawText? = none := by
        rintro m ⟨⟩
        exact ht
      by_cases hs : ∀ t ∈ (run.map RawRun.text).toList, (Context.rcdata e).Spares t
      · have hread := Assembly.readCollected_receives_raws hb hr hs
        have hnode := hread.trans
          (Assembly.feedNode_receives_flat (hread.context.trans hb) ht hflat)
        have hstay := (staysIn_readCollected hb hhead hs).trans
          (staysIn_feedNode nodes (hread.context.trans hb) ht hflat)
        have ih := staysIn_bodyCut nodes none [] (hnode.context.trans hb)
          (by rw [hnode.config, hj]) rfl hnodes
        rw [List.nil_append] at ih
        rcases ih with ⟨b', hstays, hspares⟩ | ⟨before, raws', run', later, b', hcut, hstays, hrec⟩
        · refine .inl ⟨b', hstay.trans hstays, ?_⟩
          rw [hr.lexedRuns_cons ht hflat]
          exact fun t h => (List.mem_append.mp h).elim (hs t) (hspares t)
        · refine .inr ⟨_, raws', run', later, b', hcut.after hr hs ht hflat, hstay.trans hstays, ?_⟩
          rw [withoutEmpty_append, withoutEmpty_cons ht]
          have hboth := hnode.trans hrec
          rwa [List.append_assoc, List.singleton_append] at hboth
      · obtain ⟨run', hcut, hstays⟩ := staysIn_begin hb hr hhead hs
        exact .inr ⟨[], raws, run', n :: nodes, b, hcut, hstays, .refl b⟩

end Moment

/-! ## 6. The close tag -/

/-- In text with a close tag of the element, reading stays in the body up to the first one. -/
theorem Moment.staysIn_firstClose {e : Rcdata} {b : Assembly} {t : Text} (run : RawRun)
    (nodes : List Node) (hb : b.context = .rcdata e) (hs : ¬ (Context.rcdata e).Spares t) :
    ∃ u v b', e.FirstClose t u v
      ∧ StaysIn (.rcdata e) (.reading b run 0 none t none nodes) (.marked b' run (Text.size u)
        (Lexeme.tagStart true 2) (.tagStart true) v none nodes)
      ∧ b.Receives (withoutEmpty [.raw default default u]) b' := by
  have hmark {c : Char} {cs : Text} (h : Lexeme.closesElement e (c :: cs) = true) :
      b.context.lexeme c cs = Lexeme.tagStart true 2 := by
    simp only [hb, Context.lexeme, Lexeme.inRcdata, Text.seek, h, if_true]
  obtain ⟨n, hseek, hfirst⟩ := Context.exists_firstClose hs
  have hcloses := Lexeme.closesElement_of_endsAt hfirst.closes
  cases t with
  | nil => cases hseek
  | cons c cs =>
    cases n with
    | zero => exact ⟨_, _, b, hfirst, .single ⟨next_mark (hmark hcloses), hb⟩, .refl b⟩
    | succ k =>
      have hcontent : b.context.lexeme c cs = Lexeme.content b.context (k + 1) := by
        simp only [hb, Context.lexeme, Lexeme.inRcdata, hseek]
      have hstep := next_content run 0 none none nodes hcontent
      rw [Nat.zero_add, List.take_succ_cons] at hstep
      rw [List.take_succ_cons] at hfirst
      generalize cs.take k = u at hstep hfirst
      generalize (c :: cs).drop (k + 1) = v at hstep hfirst hcloses
      cases v with
      | nil => cases hcloses
      | cons d ds =>
        refine ⟨c :: u, d :: ds, _, hfirst,
          .head ⟨hstep, hb⟩ (.single ⟨next_mark (hmark hcloses), ?_⟩), ?_⟩
        · exact (Assembly.release_context b run (some (Held.add none 0 (c :: u)))
            (Text.size (c :: u))).trans hb
        · rw [Assembly.release, Held.text_add_none]
          exact Assembly.addText_receives b (c :: u) (run.location 0 (Text.size (c :: u)))

namespace TagDraft

/-- The tag is a close tag that ends the body of the element; its `<` is at the offset. -/
structure Ends (tag : TagDraft) (e : Rcdata) (start : Nat) : Prop where
  close : tag.close = true
  start : tag.start = start
  element : tag.element = some e

end TagDraft

namespace Assembly

/-- The name of the close tag that ends the body is being read. -/
structure Spelling (b : Assembly) (part : NamePart) (e : Rcdata) (start : Nat)
    (text : Text) : Prop where
  context : b.context = .tagName part
  tag : ∃ tag, b.tag = some tag ∧ tag.Ends e start ∧ tag.name = none ∧ tag.nameText = text

/-- The close tag that ends the body is open, and this is its name. -/
def ClosesBody (b : Assembly) (e : Rcdata) (start : Nat) (name : Text) : Prop :=
  ∃ tag id location, b.tag = some tag ∧ tag.Ends e start ∧ tag.name = some (.raw id location name)

variable {b : Assembly} {e : Rcdata} {start : Nat} {name : Text}

/-- A close tag is opened in the body. -/
theorem spelling_openTag (hb : b.context = .rcdata e) (location : Span) (offset : Nat) :
    ((b.openTag true location).enter (.tagName .empty) offset).Spelling .empty e location.start
      [] := by
  refine ⟨enter_context .., _, enter_tag .., ⟨rfl, rfl, ?_⟩, rfl, rfl⟩
  dsimp only
  rw [hb]

/-- The characters of the name are read. -/
theorem Spelling.addTagName (h : b.Spelling .empty e start []) (name : Text) (location : Span)
    (offset : Nat) :
    ((b.addTagName name location).enter (.tagName .static) offset).Spelling .static e start
      name := by
  obtain ⟨tag, ht, hends, hnone, htext⟩ := h.tag
  have hadd : (b.addTagName name location).tag = some { tag with
      nameText := tag.nameText ++ name
      nameLocation := if tag.nameText.isEmpty then location
        else tag.nameLocation.union location } := by
    simp only [Assembly.addTagName, ht]
  exact ⟨enter_context .., _, (enter_tag ..).trans hadd,
    ⟨hends.close, hends.start, hends.element⟩, hnone, by rw [htext, List.nil_append]⟩

theorem Spelling.finishTagName (h : b.Spelling .static e start name) (hname : name ≠ [])
    (here : Context) (offset : Nat) :
    (b.finishTagName.enter here offset).ClosesBody e start name := by
  obtain ⟨tag, ht, hends, hnone, rfl⟩ := h.tag
  have hempty : tag.nameText.isEmpty = false := by
    cases h : tag.nameText with
    | nil => exact absurd h hname
    | cons => rfl
  refine ⟨{ tag with nameText := [], name := some _ }, b.ledger.ids.next, tag.nameLocation, ?_,
    ⟨hends.close, hends.start, hends.element⟩, rfl⟩
  rw [enter_tag]
  simp only [Assembly.finishTagName, ht, hnone, hempty, Option.isNone_none, Bool.not_false,
    Bool.and_self, if_true]

theorem Spelling.settleAtEnd (h : b.Spelling .static e start name) (hname : name ≠ []) :
    b.settleAtEnd.ClosesBody e start name := by
  unfold Assembly.settleAtEnd
  rw [h.context]
  exact h.finishTagName hname _ _

theorem Spelling.reportJoined (h : b.Spelling .static e start name) (n : Node) :
    (b.reportJoined n).Spelling .static e start name := by
  unfold Assembly.reportJoined
  split
  · exact ⟨h.context, h.tag⟩
  · exact h

theorem ClosesBody.reportAttr (h : b.ClosesBody e start name) (location : Span) :
    (b.reportAttr location).ClosesBody e start name := by
  obtain ⟨tag, id, loc, ht, hends, hname⟩ := h
  unfold Assembly.reportAttr
  rw [ht]
  split
  · exact ⟨tag, id, loc, ht, hends, hname⟩
  · next h => cases h
  · next tag' _ h =>
    cases h
    split
    · exact ⟨tag, id, loc, ht, hends, hname⟩
    · exact ⟨{ tag with warned := true }, id, loc, rfl,
        ⟨hends.close, hends.start, hends.element⟩, hname⟩

theorem ClosesBody.placeInTag (h : b.ClosesBody e start name) (n : Node) :
    (b.placeInTag n).ClosesBody e start name := by
  unfold Assembly.placeInTag
  split
  · obtain ⟨tag, id, location, ht, hends, hname⟩ := h.reportAttr n.location
    exact ⟨tag, id, location, by rw [enter_tag, openAttr, ht], hends, hname⟩
  · obtain ⟨tag, id, location, ht, hends, hname⟩ := h
    refine ⟨{ tag with children := n :: tag.children }, id, location, ?_,
      ⟨hends.close, hends.start, hends.element⟩, hname⟩
    unfold addAmongAttrs
    rw [ht]

/-- A node that is neither text nor control flow ends the name. -/
theorem Spelling.feedNode (h : b.Spelling .static e start name) (hname : name ≠ []) {n : Node}
    (ht : n.rawText? = none) (hn : n.isFlat = true) : (feedNode b n).ClosesBody e start name := by
  have hplace : (b.place n).ClosesBody e start name := by
    unfold place
    rw [h.context]
    exact ((h.reportJoined n).finishTagName hname _ _).placeInTag n
  cases n with
  | print =>
    rw [TemplateMarkup.feedNode]
    exact hplace
    all_goals simp
  | call _ _ _ params =>
    obtain rfl : params = [] := List.isEmpty_iff.mp hn
    rw [TemplateMarkup.feedNode, rewriteParams]
    exact hplace
  | binding _ _ _ value =>
    cases value with
    | expr =>
      rw [TemplateMarkup.feedNode, rewriteValue]
      exact hplace
    | content => cases hn
  | raw => cases ht
  | _ => cases hn

end Assembly

namespace Moment

variable {b : Assembly} {e : Rcdata} {start : Nat} {name : Text}

/-- When the name has been read, it becomes the name of the tag. -/
theorem exists_closesBody_of_spelling (run : RawRun) (pos : Nat) {rest : Text} {nodes : List Node}
    (h : b.Spelling .static e start name) (hname : name ≠ [])
    (hrest : ∀ c ∈ rest.head?, endsName c = true)
    (hnext : ∀ n ∈ nodes.head?, n.rawText? = none) (hn : ∀ n ∈ nodes, n.isFlat = true) :
    ∃ m, Reaches (.reading b run pos none rest none nodes) m
      ∧ m.assembly.ClosesBody e start name := by
  cases rest with
  | cons c cs =>
    have hlexeme : b.context.lexeme c cs = Lexeme.marking .tagNameEnd .beforeAttrName 0 := by
      simp only [h.context, Context.lexeme, Lexeme.inTagNameAt, hrest c rfl, if_true]
    exact ⟨_, .head (next_mark hlexeme) (reaches_next rfl), h.finishTagName hname _ _⟩
  | nil =>
    have hread : ({ b with offset := run.locateEnd run.text.size } : Assembly).Spelling .static e
        start name := ⟨h.context, h.tag⟩
    cases nodes with
    | nil => exact ⟨_, .head rfl (reaches_next rfl), hread.settleAtEnd hname⟩
    | cons n nodes =>
      have ht := hnext n rfl
      have hflat := hn n List.mem_cons_self
      refine ⟨.between (feedNode { b with offset := run.locateEnd run.text.size } n) none nodes,
        .head rfl (reaches_next ?_), hread.feedNode hname ht hflat⟩
      cases n with
      | raw => cases ht
      | flow => cases hflat
      | _ => rfl

/-- The letters of the element's name are read as the name of the tag. -/
theorem exists_closesBody (run : RawRun) (pos : Nat) {rest : Text} {nodes : List Node}
    (h : b.Spelling .empty e start []) (hname : name.map Char.toLower = e.name.toList)
    (hrest : ∀ c ∈ rest.head?, endsName c = true)
    (hnext : ∀ n ∈ nodes.head?, n.rawText? = none) (hn : ∀ n ∈ nodes, n.isFlat = true) :
    ∃ m, Reaches (.reading b run pos none (name ++ rest) none nodes) m
      ∧ m.assembly.ClosesBody e start name := by
  obtain ⟨hin, c, cs, rfl, hc⟩ := Rcdata.inTagName_of_map_toLower hname
  have hstop : ∀ d ds, rest = d :: ds → inTagName d = false := by
    rintro d ds rfl
    exact not_inTagName_of_endsName (hrest d rfl)
  have hlexeme : b.context.lexeme c (cs ++ rest)
      = Lexeme.marking .tagNameChars (.tagName .static) (c :: cs).length := by
    simp only [h.context, Context.lexeme, Lexeme.inTagNameAt, hc, if_true]
    rw [← List.cons_append, Text.run_append hstop hin]
  have hread := h.addTagName (c :: cs) (run.location pos (pos + Text.size (c :: cs)))
    (run.location pos (pos + Text.size (c :: cs))).start
  obtain ⟨m, hm, hcloses⟩ := exists_closesBody_of_spelling run
    (pos + Text.size (c :: cs)) hread (List.cons_ne_nil c cs) hrest hnext hn
  rw [List.cons_append]
  refine ⟨m, .head (next_mark hlexeme) (.head ?_ hm), hcloses⟩
  have htake : (c :: (cs ++ rest)).take (c :: cs).length = c :: cs := List.take_left
  have hdrop : (c :: (cs ++ rest)).drop (c :: cs).length = rest := List.drop_left
  simp only [next, Lexeme.marking, htake, hdrop]
  rfl

end Moment

/-! ## 7. The end of the body -/

/-- **The end of the body of an element.**  The close tag begins at the first place of the first
run that holds one.  Everything before it is content and nothing is reported before it; at it the
context changes to that of a tag whose name is the element's, letter case aside. -/
structure Assembly.BodyEnd (b : Assembly) (e : Rcdata) (nodes : List Node) where
  /-- The nodes before the run. -/
  before : List Node
  /-- The nodes of the run. -/
  raws : List Node
  run : RawRun
  later : List Node
  /-- The text of the run before the close tag. -/
  lead : Text
  /-- The text of the run from the close tag on. -/
  tail : Text
  /-- The assembly before the close tag. -/
  reached : Assembly
  /-- The moment after the `</`. -/
  opened : Moment
  /-- A moment at which the tag has its name. -/
  named : Moment
  name : Text
  cut : BodyCut e nodes before raws run later
  first : e.FirstClose run.text lead tail
  stays : Moment.StaysIn (.rcdata e) (.between b none nodes) (.marked reached run (Text.size lead)
    (Lexeme.tagStart true 2) (.tagStart true) tail none later)
  kept : b.Receives (withoutEmpty (before ++ [.raw default default lead])) reached
  opens : (Moment.marked reached run (Text.size lead) (Lexeme.tagStart true 2) (.tagStart true) tail
    none later).next = some opened
  leaves : opened.assembly.context = .tagName .empty
  goesOn : opened.Reaches named
  closes : named.assembly.ClosesBody e (run.locate (Text.size lead)) name
  isName : name.map Char.toLower = e.name.toList

namespace Assembly

variable {b : Assembly} {e : Rcdata} {nodes : List Node}

/-- Where the body ends, it is left. -/
theorem BodyEnd.leaves_body (h : b.BodyEnd e nodes) (hb : b.context = .rcdata e) :
    b.Leaves nodes := by
  refine ⟨h.opened, h.stays.reaches.tail h.opens, ?_, ?_⟩
  · rw [← Option.some.inj h.opens]
    rfl
  · rw [h.leaves, hb]
    nofun

/-- The body ends at the first close tag of the first run that holds one. -/
theorem nonempty_bodyEnd {before raws later : List Node} {run : RawRun} {b' : Assembly}
    (hb : b.context = .rcdata e) (hn : ∀ n ∈ nodes, n.isFlat = true)
    (hcut : BodyCut e nodes before raws run later)
    (hstays : Moment.StaysIn (.rcdata e) (.between b none nodes) (.begin b' run none later))
    (hrec : b.Receives (withoutEmpty before) b') : Nonempty (b.BodyEnd e nodes) := by
  obtain ⟨lead, tail, reached, hfirst, hread, hlead⟩ :=
    Moment.staysIn_firstClose (b := { b' with ledger := b'.ledger.countRun }) run later
      (hrec.context.trans hb) hcut.closes
  have hkept := hrec.trans (Receives.setOffset hlead rfl rfl rfl reached.offset)
  obtain ⟨name, rest, rfl, hname, hrest⟩ := hfirst.closes
  have hflat : ∀ n ∈ later, n.isFlat = true := by
    intro n h
    rw [hcut.cut] at hn
    exact hn n (List.mem_append_right _ h)
  obtain ⟨named, hnamed, hcloses⟩ := Moment.exists_closesBody run _
    (spelling_openTag (hkept.context.trans hb)
      (run.location (Text.size lead) (Text.size lead + Text.size ['<', '/']))
      (run.location (Text.size lead) (Text.size lead + Text.size ['<', '/'])).start)
    hname hrest hcut.next hflat
  exact ⟨{
    before, raws, run, later, lead, reached, named, name
    cut := hcut
    first := hfirst
    stays := hstays.trans hread
    kept := by
      rw [withoutEmpty_append]
      exact hkept
    opens := rfl
    leaves := enter_context ..
    goesOn := hnamed
    closes := hcloses
    isName := hname
    tail := _
    opened := _ }⟩

/-- **The body of an element is left exactly where its close tag is written.**  Over text, prints,
calls without parameters and bindings, with text joined, some moment is outside the body if and only
if some run of text has `</`, the name of the element in any letter case, and a character that ends
names or the end of the run.  Then the body ends at the first such place (`BodyEnd`). -/
theorem leaves_iff_closeTag (hb : b.context = .rcdata e) (hj : b.ledger.config.joinText = true)
    (hn : ∀ n ∈ nodes, n.isFlat = true) :
    (b.Leaves nodes ↔ ∃ t ∈ lexedRuns true none nodes, ∃ u v, t = u ++ v
        ∧ Context.EndsAt v (.rcdata e))
      ∧ (b.Leaves nodes → Nonempty (b.BodyEnd e nodes)) := by
  rcases Moment.staysIn_bodyCut nodes none [] hb hj rfl hn with
    ⟨b', hstays, hs⟩ | ⟨before, raws, run, later, b', hcut, hstays, hrec⟩
  · have hnot : ¬ b.Leaves nodes := not_leaves (hb ▸ hstays)
    refine ⟨iff_of_false hnot ?_, fun h => absurd h hnot⟩
    rintro ⟨t, ht, u, v, rfl, hv⟩
    exact hs _ ht v (List.suffix_append u v) hv
  · obtain ⟨hend⟩ := nonempty_bodyEnd hb hn hcut hstays hrec
    refine ⟨iff_of_true (hend.leaves_body hb) ⟨hend.run.text, ?_, hend.lead, hend.tail,
      hend.first.cut, hend.first.closes⟩, fun _ => ⟨hend⟩⟩
    rw [hend.cut.runs]
    exact List.mem_append_right _ List.mem_cons_self

/-- The text `<script>` as it has been read. -/
def inScript : Assembly :=
  (Assembly.start (.start {} (.startingAt 0)) .pcdata false 0).readRun
    (.single "<script>".toList ⟨0, 8, by decide⟩)

/-- The nodes `a</{$x}{sp}b</scr{nil}IPT x>`. -/
def scriptBody : List Node :=
  [.raw default default "a</".toList, .print default default "$x".toList,
    .raw default default [' '], .raw default default "b</scr".toList,
    .raw default default "IPT x>".toList]

/-- A `</` at the end of a run is content, and the close tag is found across text that was
joined. -/
theorem leaves_inScript : inScript.context = .rcdata .script ∧ inScript.Leaves scriptBody
    ∧ Nonempty (inScript.BodyEnd .script scriptBody) := by
  have hcontext : inScript.context = .rcdata .script := by decide +kernel
  have hruns : lexedRuns true none scriptBody = ["a</".toList, " b</scrIPT x>".toList] := by
    decide +kernel
  have hflat : ∀ n ∈ scriptBody, n.isFlat = true := by decide +kernel
  obtain ⟨hiff, hend⟩ := leaves_iff_closeTag hcontext (by decide +kernel) hflat
  have hleaves : inScript.Leaves scriptBody := by
    rw [hiff, hruns]
    refine ⟨_, .tail _ (.head _), " b".toList, "</scrIPT x>".toList, by decide, "scrIPT".toList,
      " x>".toList, by decide, by decide, ?_⟩
    rintro c ⟨⟩
    decide
  exact ⟨hcontext, hleaves, hend hleaves⟩

end Assembly

end TemplateMarkup
