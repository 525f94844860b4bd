/-
# Content that stands for itself

In an element whose body is text, in a comment, a declaration, cdata or an attribute value there is
one mark, the one that ends it (`Context.EndsAt`).  Text without that mark, prints, calls, bindings
and control flow among them are kept as they are: the context stays, nothing is reported, and the
nodes come after the content that is there, with neighbouring text joined (`Appended`).

A branch begins in the context of its control flow, so what is said of a list is said of the
branches in it by the same induction.  Whether the value, comment or element was opened by the block
itself or by its surroundings makes no difference: it only decides which list the content is.
-/
import TemplateMarkup.Proofs.Html.Laying
import TemplateMarkup.Proofs.Html.ReadOn

namespace TemplateMarkup

/-! ## 1. The mark that ends a context -/

namespace Context

/-- Contexts in which everything but one mark is content. -/
def isEnclosed : Context → Bool
  | rcdata _ | comment | declaration | cdata | attrValue _ => true
  | _ => false

/-- The text begins with the mark that ends the context. -/
def EndsAt (t : Text) : Context → Prop
  | rcdata element =>
    ∃ name rest, t = '<' :: '/' :: (name ++ rest) ∧ name.map Char.toLower = element.name.toList
      ∧ ∀ c ∈ rest.head?, endsName c = true
  | comment => ∃ rest, t = "-->".toList ++ rest
  | declaration => ∃ rest, t = '>' :: rest
  | cdata => ∃ rest, t = "]]>".toList ++ rest
  | attrValue .bare => ∃ c rest, t = c :: rest ∧ (isAsciiBlank c = true ∨ c = '>')
  | attrValue .single => ∃ rest, t = '\'' :: rest
  | attrValue .double => ∃ rest, t = '"' :: rest
  | _ => False

/-- The mark that ends the context is nowhere in the text. -/
def Spares (here : Context) (t : Text) : Prop := ∀ s, s <:+ t → ¬ EndsAt s here

end Context

theorem Text.seek_eq_none {here : Text → Bool} : ∀ {t : Text},
    (∀ s, s <:+ t → here s = false) → Text.seek here t = none
  | [], _ => rfl
  | c :: cs, h => by
    have hcs : Text.seek here cs = none :=
      Text.seek_eq_none fun s hs => h s (hs.trans (List.suffix_cons c cs))
    rw [Text.seek, h _ (List.suffix_refl _), hcs]
    rfl

theorem Text.all_of_suffix {p : Char → Bool} {t : Text}
    (h : ∀ c rest, c :: rest <:+ t → p c = true) : t.all p = true := by
  induction t with
  | nil => rfl
  | cons c cs ih =>
    rw [List.all_cons, h c cs (List.suffix_refl _), Bool.true_and]
    exact ih fun d rest hd => h d rest (hd.trans (List.suffix_cons c cs))

theorem Lexeme.endsAt_of_closesElement {e : Rcdata} {t : Text} (h : closesElement e t = true) :
    Context.EndsAt t (.rcdata e) := by
  unfold closesElement at h
  cases ha : Text.after? ['<', '/'] t with
  | none =>
    rw [ha] at h
    cases h
  | some s =>
    rw [ha, Option.bind_some] at h
    cases hn : Text.afterAnyCase? e.name.toList s with
    | none =>
      rw [hn] at h
      cases h
    | some rest =>
      obtain ⟨name, rfl, hname⟩ := Text.map_toLower_of_afterAnyCase? hn
      refine ⟨name, rest, Text.eq_append_of_after? ha, hname.trans (by cases e <;> rfl), ?_⟩
      intro c hc
      cases rest with
      | nil => cases hc
      | cons d rest =>
        rw [hn] at h
        cases hc
        exact h

/-- **Text that spares the mark of its context is one lexeme of content.** -/
theorem Context.lexeme_of_spares {here : Context} {c : Char} {cs : Text}
    (hb : here.isEnclosed = true) (h : here.Spares (c :: cs)) :
    here.lexeme c cs = Lexeme.content here (c :: cs).length := by
  have not_begins {m : Text} (hm : ∀ rest, EndsAt (m ++ rest) here) :
      Text.seek (Text.beginsWith m) (c :: cs) = none :=
    Text.seek_eq_none fun s hs => Bool.eq_false_iff.mpr fun hbegins => by
      obtain ⟨rest, rfl⟩ := Text.exists_of_beginsWith hbegins
      exact h _ hs (hm rest)
  have run_all {p : Char → Bool} (hall : (c :: cs).all p = true) :
      p c = true ∧ Text.run p (c :: cs) = (c :: cs).length := by
    have := Text.run_append (u := []) nofun hall
    rw [List.append_nil] at this
    exact ⟨(Bool.and_eq_true _ _ ▸ hall).1, this⟩
  cases here with
  | rcdata e =>
    have hseek : Text.seek (Lexeme.closesElement e) (c :: cs) = none :=
      Text.seek_eq_none fun s hs => Bool.eq_false_iff.mpr fun hcloses =>
        h s hs (Lexeme.endsAt_of_closesElement hcloses)
    simp only [lexeme, Lexeme.inRcdata, hseek]
  | comment => simp only [lexeme, Lexeme.inComment, not_begins fun rest => ⟨rest, rfl⟩]
  | declaration =>
    simp only [lexeme, Lexeme.inDelimited, not_begins (m := ['>']) fun rest => ⟨rest, rfl⟩]
  | cdata => simp only [lexeme, Lexeme.inDelimited, not_begins fun rest => ⟨rest, rfl⟩]
  | attrValue quotes =>
    cases quotes with
    | bare =>
      obtain ⟨hc, hrun⟩ := run_all (p := Lexeme.inBareValue) (Text.all_of_suffix fun d rest hs => by
        have hd : ¬ (isAsciiBlank d = true ∨ d = '>') := fun hd => h _ hs ⟨d, rest, rfl, hd⟩
        simp only [Lexeme.inBareValue, Bool.and_eq_true, bne_iff_ne, Bool.not_eq_true']
        exact ⟨Bool.eq_false_iff.mpr fun hb => hd (Or.inl hb), fun hb => hd (Or.inr hb)⟩)
      simp only [lexeme, Lexeme.inValue, Quotes.char?, hc, if_true, hrun]
    | single =>
      obtain ⟨hc, hrun⟩ := run_all (p := (· != '\'')) (Text.all_of_suffix fun d rest hs => by
        rw [bne_iff_ne]
        rintro rfl
        exact h _ hs ⟨rest, rfl⟩)
      simp only [lexeme, Lexeme.inValue, Quotes.char?, if_neg (bne_iff_ne.mp hc), hrun]
    | double =>
      obtain ⟨hc, hrun⟩ := run_all (p := (· != '"')) (Text.all_of_suffix fun d rest hs => by
        rw [bne_iff_ne]
        rintro rfl
        exact h _ hs ⟨rest, rfl⟩)
      simp only [lexeme, Lexeme.inValue, Quotes.char?, if_neg (bne_iff_ne.mp hc), hrun]
  | _ => cases hb

/-! ## 2. Lists that hold content only -/

mutual

/-- Text that is not empty, a print, a call without parameters, a binding to an expression, or
control flow among them. -/
def Node.isContent : Node → Bool
  | .raw _ _ t => !t.isEmpty
  | .print .. => true
  | .call _ _ _ params => params.isEmpty
  | .binding _ _ _ (.expr _) => true
  | .flow f => f.holdsContent
  | _ => false

/-- The nodes are such content. -/
def areContent : List Node → Bool
  | [] => true
  | n :: nodes => n.isContent && areContent nodes

/-- The branches hold such content. -/
def Flow.holdsContent : Flow → Bool
  | ⟨_, _, _, branches⟩ => branchesHoldContent branches

/-- The branches hold such content. -/
def branchesHoldContent : List Branch → Bool
  | [] => true
  | branch :: branches => branch.holdsContent && branchesHoldContent branches

/-- The branch holds such content. -/
def Branch.holdsContent : Branch → Bool
  | ⟨_, _, nodes⟩ => areContent nodes

end

mutual

/-- The texts that are read as one each, at every level of control flow: neighbouring raw text is
one if text is joined.  `run` is the text collected before the nodes. -/
def lexedRuns (join : Bool) (run : Option Text) : List Node → List Text
  | [] => run.toList
  | n :: nodes =>
    match n.rawText? with
    | some t =>
      match run with
      | none => lexedRuns join (some t) nodes
      | some s =>
        if join then lexedRuns join (some (s ++ t)) nodes else s :: lexedRuns join (some t) nodes
    | none => run.toList ++ (n.lexedRuns join ++ lexedRuns join none nodes)

/-- The texts in a node that are read as one each. -/
def Node.lexedRuns (join : Bool) : Node → List Text
  | .flow f => f.lexedRuns join
  | _ => []

/-- The texts in the branches that are read as one each. -/
def Flow.lexedRuns (join : Bool) : Flow → List Text
  | ⟨_, _, _, branches⟩ => branchesLexedRuns join branches

/-- The texts in the branches that are read as one each. -/
def branchesLexedRuns (join : Bool) : List Branch → List Text
  | [] => []
  | branch :: branches => branch.lexedRuns join ++ branchesLexedRuns join branches

/-- The texts in the branch that are read as one each. -/
def Branch.lexedRuns (join : Bool) : Branch → List Text
  | ⟨_, _, nodes⟩ => TemplateMarkup.lexedRuns join none nodes

end

mutual

/-- `Appended old nodes new`: `new` is `old` with the nodes after it, the latest first.  Text joins
the text before it; else it may have another name.  Its place may change; nothing else does. -/
inductive Appended : List Node → List Node → List Node → Prop
  | done {old : List Node} : Appended old [] old
  | joined {id id' : NodeId} {loc loc' after : Span} {s t : Text} {old nodes new : List Node}
      (h : Appended (.raw id after (s ++ t) :: old) nodes new) :
      Appended (.raw id loc s :: old) (.raw id' loc' t :: nodes) new
  | text {id id' : NodeId} {loc loc' : Span} {t : Text} {old nodes new : List Node}
      (hold : ∀ n ∈ old.head?, n.rawText? = none)
      (h : Appended (.raw id' loc' t :: old) nodes new) :
      Appended old (.raw id loc t :: nodes) new
  | print {id : NodeId} {loc : Span} {expr : Text} {old nodes new : List Node}
      (h : Appended (.print id loc expr :: old) nodes new) :
      Appended old (.print id loc expr :: nodes) new
  | call {id : NodeId} {loc : Span} {callee : Text} {old nodes new : List Node}
      (h : Appended (.call id loc callee [] :: old) nodes new) :
      Appended old (.call id loc callee [] :: nodes) new
  | binding {id : NodeId} {loc : Span} {var expr : Text} {old nodes new : List Node}
      (h : Appended (.binding id loc var (.expr expr) :: old) nodes new) :
      Appended old (.binding id loc var (.expr expr) :: nodes) new
  | flow {id : NodeId} {loc : Span} {head : FlowHead} {branches rebuilt : List Branch}
      {old nodes new : List Node} (hb : BranchesAppended branches rebuilt)
      (h : Appended (.flow ⟨id, loc, head, rebuilt⟩ :: old) nodes new) :
      Appended old (.flow ⟨id, loc, head, branches⟩ :: nodes) new

/-- The second branches are the first, with neighbouring text joined in each. -/
inductive BranchesAppended : List Branch → List Branch → Prop
  | nil : BranchesAppended [] []
  | cons {id : NodeId} {kind : BranchKind} {nodes rebuilt : List Node}
      {branches later : List Branch} (h : Appended [] nodes rebuilt.reverse)
      (hb : BranchesAppended branches later) :
      BranchesAppended (⟨id, kind, nodes⟩ :: branches) (⟨id, kind, rebuilt⟩ :: later)

end

theorem Appended.trans {last : List Node} : ∀ {old nodes mid later : List Node},
    Appended old nodes mid → Appended mid later last → Appended old (nodes ++ later) last
  | _, _, _, _, .done, h => h
  | _, _, _, _, .joined h', h => .joined (h'.trans h)
  | _, _, _, _, .text hold h', h => .text hold (h'.trans h)
  | _, _, _, _, .print h', h => .print (h'.trans h)
  | _, _, _, _, .call h', h => .call (h'.trans h)
  | _, _, _, _, .binding h', h => .binding (h'.trans h)
  | _, _, _, _, .flow hb h', h => .flow hb (h'.trans h)

/-- More text comes after a text piece by piece. -/
theorem appended_texts {id : NodeId} {loc : Span} {old : List Node} : ∀ {s : Text}
    {nodes : List Node} {texts : List Text}, nodes.map Node.rawText? = texts.map some →
    Appended (.raw id loc s :: old) nodes (.raw id loc (s ++ texts.flatten) :: old)
  | s, [], [], _ => by
    rw [List.flatten_nil, List.append_nil]
    exact .done
  | s, n :: nodes, t :: texts, h => by
    obtain ⟨hn, htexts⟩ := List.cons_eq_cons.mp h
    obtain ⟨id', loc', rfl⟩ := Node.eq_raw_of_rawText? hn
    rw [List.flatten_cons, ← List.append_assoc]
    exact .joined (appended_texts htexts)

/-- Text that is appended in one piece is appended in several. -/
theorem Appended.pieces {old nodes new : List Node} {texts : List Text}
    (hraw : nodes.map Node.rawText? = texts.map some) (hne : texts ≠ [])
    (h : Appended old [.raw default default texts.flatten] new) : Appended old nodes new := by
  cases texts with
  | nil => exact absurd rfl hne
  | cons t texts =>
    cases nodes with
    | nil => cases hraw
    | cons n nodes =>
      obtain ⟨hn, htexts⟩ := List.cons_eq_cons.mp hraw
      obtain ⟨id', loc', rfl⟩ := Node.eq_raw_of_rawText? hn
      rw [List.flatten_cons] at h
      cases h with
      | joined h =>
        cases h
        rw [← List.append_assoc]
        exact .joined (appended_texts htexts)
      | text hold h =>
        cases h
        exact .text hold (appended_texts htexts)

/-! ## 3. What an assembly becomes -/

namespace Assembly

/-- The assembly with other content, and a ledger and an offset that have gone on. -/
def holding (b : Assembly) (ledger : Ledger) (offset : Nat) (content : List Node) : Assembly :=
  ({ b with ledger := ledger, offset := offset } : Assembly).setContent content

section

variable (b : Assembly) (l l' : Ledger) (k k' : Nat) (nodes nodes' : List Node)

@[simp] theorem holding_context : (b.holding l k nodes).context = b.context := setContent_context ..

@[simp] theorem holding_ledger : (b.holding l k nodes).ledger = l := setContent_ledger ..

@[simp] theorem holding_offset : (b.holding l k nodes).offset = k := by
  unfold holding setContent
  split <;> rfl

@[simp] theorem holding_content : (b.holding l k nodes).content = nodes := by
  obtain ⟨l0, e, c, i, o, t, a, v, m, f, r, k0⟩ := b
  cases c <;> cases v <;> cases m <;> rfl

@[simp] theorem holding_holding :
    (b.holding l k nodes).holding l' k' nodes' = b.holding l' k' nodes' := by
  obtain ⟨l0, e, c, i, o, t, a, v, m, f, r, k0⟩ := b
  cases c <;> cases v <;> cases m <;> rfl

theorem holding_self : b.holding b.ledger b.offset b.content = b := by
  obtain ⟨l0, e, c, i, o, t, a, v, m, f, r, k0⟩ := b
  cases c <;> cases v <;> cases m <;> rfl

/-- One more node of content is held, and nothing else changes. -/
theorem addContent_eq_holding (n : Node) :
    b.addContent n = b.holding b.ledger b.offset (n :: b.content) := rfl

theorem reach_holding : (b.holding l k nodes).reach k' = b.holding l (max k k') nodes := by
  obtain ⟨l0, e, c, i, o, t, a, v, m, f, r, k0⟩ := b
  cases c <;> cases v <;> cases m <;> rfl

theorem setOffset_holding :
    ({ b.holding l k nodes with offset := k' } : Assembly) = b.holding l k' nodes := by
  obtain ⟨l0, e, c, i, o, t, a, v, m, f, r, k0⟩ := b
  cases c <;> cases v <;> cases m <;> rfl

end

/-- **The second assembly is the first with the nodes after its content.**  The context is the same,
no draft has opened or closed, and nothing more has been reported. -/
structure Receives (b : Assembly) (nodes : List Node) (b' : Assembly) : Prop where
  context : b'.context = b.context
  content : Appended b.content nodes b'.content
  frame : b' = b.holding b'.ledger b'.offset b'.content
  silent : b'.ledger.diagnostics = b.ledger.diagnostics
  config : b'.ledger.config = b.ledger.config
  depth : b'.ledger.depth = b.ledger.depth

namespace Receives

variable {b : Assembly} {nodes : List Node}

theorem refl (b : Assembly) : b.Receives [] b :=
  ⟨rfl, .done, b.holding_self.symm, rfl, rfl, rfl⟩

theorem trans {b' b'' : Assembly} {later : List Node} (h : b.Receives nodes b')
    (h' : b'.Receives later b'') : b.Receives (nodes ++ later) b'' where
  context := h'.context.trans h.context
  content := h.content.trans h'.content
  frame := by
    have hframe := h'.frame
    rw [h.frame, holding_holding] at hframe
    exact hframe
  silent := h'.silent.trans h.silent
  config := h'.config.trans h.config
  depth := h'.depth.trans h.depth

/-- What is held after the nodes has been received. -/
theorem of_holding {l : Ledger} {new : List Node} (h : Appended b.content nodes new)
    (hs : l.diagnostics = b.ledger.diagnostics) (hc : l.config = b.ledger.config)
    (hd : l.depth = b.ledger.depth) (k : Nat) : b.Receives nodes (b.holding l k new) := by
  refine ⟨holding_context .., ?_, ?_, ?_, ?_, ?_⟩
  · rw [holding_content]
    exact h
  · rw [holding_ledger, holding_offset, holding_content]
  all_goals
    rw [holding_ledger]
    assumption

/-- A count in the ledger before, and an offset after, make no difference. -/
theorem setOffset {b' : Assembly} {l : Ledger}
    (h : ({ b with ledger := l } : Assembly).Receives nodes b')
    (hs : l.diagnostics = b.ledger.diagnostics) (hc : l.config = b.ledger.config)
    (hd : l.depth = b.ledger.depth) (k : Nat) : b.Receives nodes { b' with offset := k } := by
  have hframe : b' = b.holding b'.ledger b'.offset b'.content := h.frame
  have hoffset : ({ b' with offset := k } : Assembly) = b.holding b'.ledger k b'.content :=
    (congrArg (fun a : Assembly => { a with offset := k }) hframe).trans (setOffset_holding ..)
  rw [hoffset]
  exact of_holding (b := b) h.content (Eq.trans h.silent hs) (Eq.trans h.config hc)
    (Eq.trans h.depth hd) k

end Receives

/-! ## 4. Text -/

/-- Text that is added comes after the content. -/
theorem addText_receives (b : Assembly) (t : Text) (place : Span) :
    b.Receives [.raw default default t] (b.addText t place) := by
  unfold addText
  split
  · next id before s nodes hc =>
    refine .of_holding ?_ rfl rfl rfl b.offset
    rw [hc]
    exact .joined .done
  · next nodes hc =>
    refine .of_holding (l := b.ledger.drawn) (.text ?_ .done) rfl rfl rfl b.offset
    intro n hn
    cases n with
    | raw id before s =>
      obtain ⟨tail, htail⟩ := List.head?_eq_some_iff.mp hn
      exact absurd htail (hc id before s tail)
    | _ => rfl

/-- Text that is one lexeme of content is added as one text. -/
theorem read_of_lexeme {b : Assembly} {run : RawRun} {c : Char} {cs : Text}
    (h : b.context.lexeme c cs = Lexeme.content b.context (c :: cs).length) :
    b.read run 0 none (c :: cs) = b.addText (c :: cs) (run.location 0 (Text.size (c :: cs))) := by
  rw [read_cons_content h, enter_self, List.take_length, List.drop_length, Assembly.read, release,
    Held.text_add_none, Nat.zero_add]
  rfl

/-- **A run that spares the mark of its context comes after the content.** -/
theorem readRun_receives {b : Assembly} {run : RawRun} (hb : b.context.isEnclosed = true)
    (hne : run.text ≠ []) (hs : b.context.Spares run.text) :
    b.Receives [.raw default default run.text] (b.readRun run) := by
  obtain ⟨c, cs, ht⟩ := List.exists_cons_of_ne_nil hne
  unfold readRun
  dsimp only
  rw [ht] at hs ⊢
  rw [read_of_lexeme (b := { b with ledger := b.ledger.countRun })
    (Context.lexeme_of_spares hb hs)]
  have hadd := addText_receives { b with ledger := b.ledger.countRun } (c :: cs)
    (run.location 0 (Text.size (c :: cs)))
  exact Receives.setOffset (l := b.ledger.countRun) hadd rfl rfl rfl _

/-- The raw text nodes that a run has been collected from; none is empty. -/
def Collects (before : List Node) : Option RawRun → Prop
  | none => before = []
  | some run =>
    before.map Node.rawText? = (run.pieces.map Piece.text).map some
      ∧ ∀ t ∈ run.pieces.map Piece.text, t ≠ []

theorem collects_nil : Collects [] none := rfl

theorem collects_single {n : Node} {t : Text} (hn : n.rawText? = some t) (hne : t ≠ []) :
    Collects [n] (some (.single t n.location)) := by
  refine ⟨?_, fun u hu => ?_⟩
  · rw [List.map_singleton, hn]
    rfl
  · obtain rfl := List.mem_singleton.mp hu
    exact hne

theorem collects_push {before : List Node} {run : RawRun} {n : Node} {t : Text}
    (h : Collects before (some run)) (hn : n.rawText? = some t) (hne : t ≠ []) :
    Collects (before ++ [n]) (some (run.push t n.location)) := by
  have hpieces : (run.push t n.location).pieces.map Piece.text
      = run.pieces.map Piece.text ++ [t] := by
    simp [RawRun.push, RawRun.pieces]
  refine ⟨?_, fun u hu => ?_⟩
  · rw [hpieces, List.map_append, List.map_append, h.1, List.map_singleton, hn]
    rfl
  · rw [hpieces] at hu
    rcases List.mem_append.mp hu with hu | hu
    · exact h.2 u hu
    · obtain rfl := List.mem_singleton.mp hu
      exact hne

theorem readCollected_receives {b : Assembly} {run : Option RawRun} {before : List Node}
    (hb : b.context.isEnclosed = true) (hr : Collects before run)
    (hs : ∀ t ∈ (run.map RawRun.text).toList, b.context.Spares t) :
    b.Receives before (b.readCollected run) := by
  cases run with
  | none =>
    obtain rfl : before = [] := hr
    exact .refl b
  | some run =>
    obtain ⟨hraw, hne⟩ := hr
    have htext : run.text = (run.pieces.map Piece.text).flatten := List.flatMap_def ..
    have hrun : run.text ≠ [] := by
      rw [htext]
      intro h
      exact hne run.first.text (by simp [RawRun.pieces]) (List.flatten_eq_nil_iff.mp h _
        (by simp [RawRun.pieces]))
    have h := readRun_receives hb hrun (hs run.text (by simp))
    rw [htext] at h
    exact { h with content := h.content.pieces hraw (by simp [RawRun.pieces]) }

/-! ## 5. Nodes -/

theorem place_of_isEnclosed {b : Assembly} {n : Node} (hb : b.context.isEnclosed = true)
    (hn : contextAfter? b.context n = none) : b.place n = b.addContent n := by
  have hplace : b.place n = b.placeContent n := by
    unfold place
    cases hc : b.context <;> rw [hc] at hb <;> first | rfl | cases hb
  rw [hplace, placeContent, hn]

/-- A node that is placed as content comes after the content. -/
theorem place_receives {b : Assembly} {n : Node} (hb : b.context.isEnclosed = true)
    (hn : contextAfter? b.context n = none) (ha : Appended b.content [n] (n :: b.content))
    (stop : Nat) : b.Receives [n] ((b.place n).reach stop) := by
  rw [place_of_isEnclosed hb hn, addContent_eq_holding, reach_holding]
  exact .of_holding ha rfl rfl rfl _

/-- Control flow that leads back to its context comes after the content. -/
theorem placeFlow_receives {b : Assembly} {f g : Flow} {l : Ledger}
    (hb : b.context.isEnclosed = true) (ha : Appended b.content [.flow f] (.flow g :: b.content))
    (hs : l.diagnostics = b.ledger.diagnostics) (hl : b.ledger.Extends l) (stop : Nat) :
    b.Receives [.flow f]
      ((({ b with ledger := l } : Assembly).placeFlow g b.context).reach stop) := by
  have hplace : ({ b with ledger := l } : Assembly).placeFlow g b.context
      = ({ b with ledger := l } : Assembly).addContent (.flow g) := by
    have hcontext : (({ b with ledger := l } : Assembly).addContent (.flow g)).context = b.context :=
      addContent_context ..
    unfold placeFlow
    cases hc : b.context <;> rw [hc] at hb hcontext <;> cases hb
    all_goals
      dsimp only
      unfold enter
      rw [if_pos hcontext]
  rw [hplace]
  show b.Receives [.flow f] ((b.holding l b.offset (.flow g :: b.content)).reach stop)
  rw [reach_holding]
  exact .of_holding ha hs hl.config hl.depth _

/-- What a branch receives is what has been finished in it. -/
theorem receives_start {l : Ledger} {entry : Context} {offset : Nat} {nodes : List Node}
    {b : Assembly} (h : (start l entry true offset).Receives nodes b) :
    b.Closed ∧ Appended [] nodes b.out := by
  have hout : (start l entry true offset).content = [] := by
    cases entry <;> rfl
  have hframe : b = { start l entry true offset with
      ledger := b.ledger, offset := b.offset, out := b.content } := by
    refine h.frame.trans ?_
    cases entry <;> rfl
  have hcontent := h.content
  rw [hout] at hcontent
  rw [hframe]
  exact ⟨⟨rfl, rfl, rfl, rfl⟩, hcontent⟩

theorem Receives.isEnclosed {b b' : Assembly} {nodes : List Node} (h : b.Receives nodes b')
    (hb : b.context.isEnclosed = true) : b'.context.isEnclosed = true := by
  rw [h.context]
  exact hb

end Assembly

theorem Context.isSettled_of_isEnclosed {here : Context} (h : here.isEnclosed = true) :
    here.isSettled = true := by
  cases here <;> first | rfl | cases h

/-! ## 6. The pass -/

open Assembly

mutual

theorem feedNodes_receives : ∀ (nodes : List Node) {b : Assembly} {run : Option RawRun}
    {before : List Node}, b.context.isEnclosed = true → Collects before run →
    areContent nodes = true →
    (∀ t ∈ lexedRuns b.ledger.config.joinText (run.map RawRun.text) nodes, b.context.Spares t) →
    b.ledger.depth + flowDepth nodes ≤ b.ledger.config.maxDepth →
    b.Receives (before ++ nodes) (feedNodes b run nodes)
  | [], b, run, before, hb, hr, _, hs, _ => by
    rw [feedNodes, List.append_nil]
    rw [lexedRuns] at hs
    exact readCollected_receives hb hr hs
  | n :: nodes, b, run, before, hb, hr, hn, hs, hd => by
    rw [areContent, Bool.and_eq_true] at hn
    rw [flowDepth] at hd
    cases ht : n.rawText? with
    | some t =>
      have hne : t ≠ [] := by
        obtain ⟨id, location, rfl⟩ := Node.eq_raw_of_rawText? ht
        simpa [Node.isContent] using hn.1
      rw [feedNodes_cons_text ht]
      cases run with
      | none =>
        obtain rfl : before = [] := hr
        simp only [lexedRuns, ht, Option.map_none] at hs
        exact feedNodes_receives nodes hb (collects_single ht hne) hn.2
          (by simpa [collect] using hs) (Nat.le_trans (Nat.add_le_add_left (Nat.le_max_right ..) _) hd)
      | some run =>
        simp only [lexedRuns, ht, Option.map_some] at hs
        unfold collect
        dsimp only
        split
        · next hj =>
          simp only [hj, if_true] at hs
          have := feedNodes_receives nodes hb (collects_push hr ht hne) hn.2
            (by simpa [hj] using hs) (by omega)
          simpa using this
        · next hj =>
          simp only [hj, Bool.false_eq_true, if_false, List.mem_cons, forall_eq_or_imp] at hs
          have hrun := readCollected_receives hb hr (by simpa using hs.1)
          refine hrun.trans (feedNodes_receives nodes (hrun.isEnclosed hb) (collects_single ht hne)
            hn.2 ?_ ?_)
          · rw [hrun.config, hrun.context]
            simpa [hj] using hs.2
          · rw [hrun.config, hrun.depth]
            omega
    | none =>
      rw [feedNodes_cons_node ht]
      simp only [lexedRuns, ht, List.mem_append] at hs
      have hrun := readCollected_receives hb hr fun t h => hs t (Or.inl h)
      have hnode := feedNode_receives n ht (hrun.isEnclosed hb) hn.1
        (by rw [hrun.config, hrun.context]; exact fun t h => hs t (Or.inr (Or.inl h)))
        (by rw [hrun.config, hrun.depth]; omega)
      have hboth := hrun.trans hnode
      have hlater := feedNodes_receives nodes (hboth.isEnclosed hb) collects_nil hn.2
        (by rw [hboth.config, hboth.context]; exact fun t h => hs t (Or.inr (Or.inr h)))
        (by rw [hboth.config, hboth.depth]; omega)
      simpa using hboth.trans hlater

theorem feedNode_receives : ∀ (n : Node) {b : Assembly}, n.rawText? = none →
    b.context.isEnclosed = true → n.isContent = true →
    (∀ t ∈ n.lexedRuns b.ledger.config.joinText, b.context.Spares t) →
    b.ledger.depth + n.flowDepth ≤ b.ledger.config.maxDepth →
    b.Receives [n] (feedNode b n)
  | .print id location expr, b, _, hb, _, _, _ => by
    rw [feedNode]
    exact place_receives hb rfl (.print .done) _
    all_goals simp
  | .call id location callee params, b, _, hb, hn, _, _ => by
    obtain rfl : params = [] := by simpa [Node.isContent] using hn
    rw [feedNode, rewriteParams]
    exact place_receives hb rfl (.call .done) _
  | .binding id location var (.expr expr), b, _, hb, _, _, _ => by
    rw [feedNode, rewriteValue]
    exact place_receives hb rfl (.binding .done) _
  | .flow ⟨id, location, head, branches⟩, b, _, hb, hn, hs, hd => by
    rw [Node.isContent] at hn
    rw [Node.lexedRuns] at hs
    rw [Node.flowDepth] at hd
    obtain ⟨rebuilt, l, hf, ha, hl⟩ := rewriteFlow_appends ⟨id, location, head, branches⟩ hb hn hs hd
    have hext := rewriteFlow_extends ⟨id, location, head, branches⟩ b.ledger b.context
    rw [hf] at hext
    rw [feedNode, settle_of_isSettled (Context.isSettled_of_isEnclosed hb)]
    dsimp only
    rw [hf]
    exact placeFlow_receives hb (.flow ha .done) hl hext _
  | .raw .., _, hn, _, _, _, _ => by cases hn
  | .binding _ _ _ (.content ..), _, _, _, hn, _, _ | .openTag .., _, _, _, hn, _, _
  | .closeTag .., _, _, _, hn, _, _ | .attr .., _, _, _, hn, _, _
  | .attrValue .., _, _, _, hn, _, _ | .comment .., _, _, _, hn, _, _ => by
    rw [Node.isContent] at hn
    cases hn
    all_goals simp

theorem rewriteFlow_appends : ∀ (f : Flow) {l : Ledger} {entry : Context},
    entry.isEnclosed = true → f.holdsContent = true →
    (∀ t ∈ f.lexedRuns l.config.joinText, entry.Spares t) →
    l.depth + (f.flowDepth + 1) ≤ l.config.maxDepth →
    ∃ rebuilt l', rewriteFlow l entry f = (⟨f.id, f.location, f.head, rebuilt⟩, entry, l')
      ∧ BranchesAppended f.branches rebuilt ∧ l'.diagnostics = l.diagnostics
  | ⟨id, location, head, branches⟩, l, entry, he, hn, hs, hd => by
    rw [Flow.holdsContent] at hn
    rw [Flow.lexedRuns] at hs
    rw [Flow.flowDepth] at hd
    obtain ⟨rebuilt, exits, l', hb, ha, hexits, hl⟩ :=
      rewriteBranches_appends branches (l := { l with depth := l.depth + 1 }) he hn hs
        (by dsimp only; omega) location.start
    refine ⟨rebuilt, { l' with depth := l.depth }, ?_, ha, hl⟩
    rw [rewriteFlow]
    dsimp only
    rw [if_neg (by omega), hb, reconcile_of_same _ _ _ _ hexits]

theorem rewriteBranches_appends : ∀ (branches : List Branch) {l : Ledger} {entry : Context},
    entry.isEnclosed = true → branchesHoldContent branches = true →
    (∀ t ∈ branchesLexedRuns l.config.joinText branches, entry.Spares t) →
    l.depth + branchesFlowDepth branches ≤ l.config.maxDepth → ∀ (offset : Nat),
    ∃ rebuilt exits l', rewriteBranches l entry offset branches = (rebuilt, exits, l')
      ∧ BranchesAppended branches rebuilt ∧ (∀ e ∈ exits, e.2 = entry)
      ∧ l'.diagnostics = l.diagnostics
  | [], l, entry, _, _, _, _, offset => by
    rw [rewriteBranches]
    exact ⟨[], [], l, rfl, .nil, nofun, rfl⟩
  | ⟨id, kind, nodes⟩ :: branches, l, entry, he, hn, hs, hd, offset => by
    rw [branchesHoldContent, Bool.and_eq_true] at hn
    rw [branchesLexedRuns] at hs
    rw [branchesFlowDepth] at hd
    obtain ⟨first, l', hfirst, ha, hl⟩ := rewriteBranch_appends ⟨id, kind, nodes⟩ he hn.1
      (fun t h => hs t (List.mem_append_left _ h)) (by omega) offset
    have hext := rewriteBranch_extends ⟨id, kind, nodes⟩ l entry offset
    rw [hfirst] at hext
    obtain ⟨later, exits, l'', hlater, hb, hexits, hl'⟩ := rewriteBranches_appends branches he hn.2
      (fun t h => hs t (List.mem_append_right _ (hext.config ▸ h)))
      (by rw [hext.config, hext.depth]; omega) offset
    refine ⟨⟨id, kind, first⟩ :: later, (kind, entry) :: exits, l'', ?_, .cons ha hb, ?_,
      hl'.trans hl⟩
    · rw [rewriteBranches, hfirst]
      dsimp only
      rw [hlater]
    · rintro e (_ | ⟨_, he'⟩)
      · rfl
      · exact hexits e he'

theorem rewriteBranch_appends : ∀ (branch : Branch) {l : Ledger} {entry : Context},
    entry.isEnclosed = true → branch.holdsContent = true →
    (∀ t ∈ branch.lexedRuns l.config.joinText, entry.Spares t) →
    l.depth + branch.flowDepth ≤ l.config.maxDepth → ∀ (offset : Nat),
    ∃ rebuilt l', rewriteBranch l entry offset branch = (⟨branch.id, branch.kind, rebuilt⟩, entry, l')
      ∧ Appended [] branch.nodes rebuilt.reverse ∧ l'.diagnostics = l.diagnostics
  | ⟨id, kind, nodes⟩, l, entry, he, hn, hs, hd, offset => by
    rw [Branch.holdsContent] at hn
    rw [Branch.lexedRuns] at hs
    rw [Branch.flowDepth] at hd
    have h := feedNodes_receives nodes (b := .start l.countBranch entry true offset) he collects_nil
      hn hs hd
    obtain ⟨hclosed, hout⟩ := receives_start h
    refine ⟨(feedNodes (.start l.countBranch entry true offset) none nodes).nodes, _, ?_, ?_,
      h.silent⟩
    · rw [rewriteBranch]
      dsimp only
      rw [endBranch_of_closed hclosed (h.context ▸ Context.isSettled_of_isEnclosed he), h.context]
      rfl
    · rw [Assembly.nodes, List.reverse_reverse]
      exact hout

end

/-- **Where one mark ends the context, content without that mark is kept as it is.**  The context
stays, the nodes come after the content that is there, nothing else changes, and nothing is
reported. -/
theorem feedNodes_of_spares (b : Assembly) (nodes : List Node) (hb : b.context.isEnclosed = true)
    (hn : areContent nodes = true)
    (hs : ∀ t ∈ lexedRuns b.ledger.config.joinText none nodes, b.context.Spares t)
    (hd : b.ledger.depth + flowDepth nodes ≤ b.ledger.config.maxDepth) :
    b.Receives nodes (feedNodes b none nodes) :=
  feedNodes_receives nodes hb collects_nil hn hs hd

/-- The text `<a b="x` as it has been read. -/
def inLink : Assembly :=
  (Assembly.start (.start {} (.startingAt 0)) .pcdata false 0).readRun
    (.single "<a b=\"x".toList ⟨0, 7, by decide⟩)

/-- The nodes `y{$z}{if $c}> {sp}</a>{else}'{/if}`. -/
def inValue : List Node :=
  [.raw default default ['y'], .print default default "$z".toList,
    .flow ⟨default, default, .ifThen,
      [⟨default, .cond "$c".toList, [.raw default default "> ".toList, .raw default default [' '],
          .raw default default "</a>".toList]⟩,
        ⟨default, .default, [.raw default default ['\'']]⟩]⟩]

/-- What would end a tag does not end a value. -/
theorem feedNodes_of_spares_inLink :
    inLink.context = .attrValue .double ∧ inLink.Receives inValue (feedNodes inLink none inValue) := by
  have hcontext : inLink.context = .attrValue .double := by decide +kernel
  have hconfig : inLink.ledger.config = {} := by decide +kernel
  have hdepth : inLink.ledger.depth = 0 := by decide +kernel
  have hruns : lexedRuns true none inValue = [['y'], ">  </a>".toList, ['\'']] := by decide +kernel
  refine ⟨hcontext, feedNodes_of_spares inLink inValue ?_ ?_ ?_ ?_⟩
  · rw [hcontext]
    rfl
  · decide +kernel
  · rw [hconfig, hruns, hcontext]
    rintro t ht s hs ⟨rest, rfl⟩
    have hquote : '"' ∈ t := hs.mem List.mem_cons_self
    have hnone : ([['y'], ">  </a>".toList, ['\'']].all fun t => '"' ∉ t) = true := by decide +kernel
    simpa [hquote] using List.all_eq_true.mp hnone t ht
  · rw [hdepth, hconfig]
    decide +kernel

end TemplateMarkup
