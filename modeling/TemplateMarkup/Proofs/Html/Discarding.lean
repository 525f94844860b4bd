/-
# Attributes that are dropped

An attribute whose name is illegal is dropped with its value, and nothing else is: the attributes
before and after it are read as if it were not there (`Template.rewrite_writtenTag`).  That a name
is illegal may show at its first character, at a later one, or only at the character behind it, when
a separator turns out to have been the last.  Wherever it shows, it is reported there, once.

From there on the context drops what is left of the name, and the draft of the attribute is marked.
So an attribute is followed by its draft, which has the name or is marked (`AttrDraft.IsNamed`);
both are taken through the value and to the end of the attribute by the same steps.

What a run does with a part of its text is stated for whatever comes behind that part
(`Assembly.Reads`), so that a tag is put together from its parts as it is written.
-/
import TemplateMarkup.Proofs.Html.Constructs
import TemplateMarkup.Proofs.Html.PlainSource

namespace TemplateMarkup

/-! ## 1. Attributes as they are written -/

/-- An attribute as it is written: its name, and its value with how it is quoted. -/
structure WrittenAttr where
  name : Text
  value : Option (Quotes × Text)
deriving DecidableEq

/-- Where a name shows to be illegal after its first character, from byte `pos` on: at the first
character that cannot go on a name there, or at the character behind the name. -/
def illegalAfter (pos : Nat) (afterSeparator : Bool) : Text → Span
  | [] => .upTo pos (pos + 1)
  | c :: cs =>
    if inAttrName c then illegalAfter (pos + c.utf8Size) false cs
    else if separatesAttrName c && !afterSeparator then illegalAfter (pos + c.utf8Size) true cs
    else .upTo pos (pos + c.utf8Size)

/-- Where a name that is written from byte `pos` on shows to be illegal. -/
def illegalAt (pos : Nat) : Text → Span
  | [] => .upTo pos (pos + 1)
  | c :: cs =>
    if startsAttrName c then illegalAfter (pos + c.utf8Size) false cs
    else .upTo pos (pos + c.utf8Size)

namespace WrittenAttr

/-- The value as it is written, with the `=` before it. -/
def assignment (a : WrittenAttr) : Text :=
  match a.value with
  | none => []
  | some (quotes, text) => '=' :: quotes.around text

/-- The attribute as it is written, with the space before it. -/
def text (a : WrittenAttr) : Text := ' ' :: a.name ++ a.assignment

/-- Some characters, none of which ends the name or begins the value or a command. -/
def nameIsPlain (a : WrittenAttr) : Bool :=
  !a.name.isEmpty
    && a.name.all fun c => !isAsciiBlank c && c != '/' && c != '>' && c != '=' && c != '{'

/-- No character ends the value or begins a command. -/
def valueIsPlain (a : WrittenAttr) : Bool :=
  match a.value with
  | none => true
  | some (quotes, text) =>
    text.all (· != '{')
      && match quotes.char?, text with
        | some quote, _ => text.all (· != quote)
        | none, [] => false
        | none, c :: _ =>
          c != '"' && c != '\'' && text.all fun c => !isAsciiBlank c && c != '>'

/-- The value as a node. -/
def valueNode (a : WrittenAttr) : Option Node :=
  a.value.map fun (quotes, text) =>
    .attrValue default default quotes (if text.isEmpty then [] else [.raw default default text])

/-- The attribute as a node. -/
def node (a : WrittenAttr) : Node := .attr default default (.raw default default a.name) a.valueNode

end WrittenAttr

theorem separatesAttrName_of_inAttrName {c : Char} (h : inAttrName c = true) :
    separatesAttrName c = false := by
  cases hc : separatesAttrName c with
  | false => rfl
  | true =>
    simp only [separatesAttrName, Bool.or_eq_true, beq_iff_eq] at hc
    rcases hc with rfl | rfl <;> revert h <;> decide

/-- How a name goes on behind the character `b`. -/
theorem continuesAttrName_iff {b : Char} {cs : Text} :
    continuesAttrName (separatesAttrName b) cs = true
      ↔ (∀ c ∈ cs, inAttrName c = true ∨ separatesAttrName c = true)
        ∧ (b :: cs).IsChain (fun c d => separatesAttrName c = true → separatesAttrName d = false)
        ∧ ∀ c ∈ (b :: cs).getLast?, separatesAttrName c = false := by
  induction cs generalizing b with
  | nil => simp [continuesAttrName]
  | cons c cs ih =>
    rw [continuesAttrName, List.isChain_cons_cons, List.getLast?_cons_cons, List.forall_mem_cons]
    cases hin : inAttrName c with
    | true =>
      have hsep := separatesAttrName_of_inAttrName hin
      have hcs := @ih c
      rw [hsep] at hcs
      simp [hcs, hsep]
    | false =>
      cases hsep : separatesAttrName c with
      | false => simp
      | true =>
        have hcs := @ih c
        rw [hsep] at hcs
        cases separatesAttrName b <;> simp [hcs]

/-- **Legal names**: one begins with a letter, `_` or `$` and goes on with letters, digits, `_`, `$`
and separators, of which no two are neighbours and none is the last character. -/
theorem isAttrName_iff {n : Text} : isAttrName n = true ↔ (∃ c cs, n = c :: cs
      ∧ startsAttrName c = true ∧ ∀ d ∈ cs, inAttrName d = true ∨ separatesAttrName d = true)
    ∧ n.IsChain (fun c d => separatesAttrName c = true → separatesAttrName d = false)
    ∧ ∀ c ∈ n.getLast?, separatesAttrName c = false := by
  cases n with
  | nil => simp [isAttrName]
  | cons c cs =>
    rw [isAttrName]
    cases hc : startsAttrName c with
    | false => simp [hc]
    | true =>
      have hcs := @continuesAttrName_iff c cs
      rw [separatesAttrName_of_inAttrName (inAttrName_of_startsAttrName hc)] at hcs
      simp [hcs, hc]

/-- A tag as it is written with attributes. -/
def writtenTag (n : Text) (attrs : List WrittenAttr) : Text :=
  '<' :: n ++ attrs.flatMap WrittenAttr.text ++ ['>']

/-- What is reported of a name that is written from byte `pos` on. -/
def nameReports (pos : Nat) (n : Text) : List Diagnostic :=
  if isAttrName n then [] else [⟨illegalAt pos n, .illegalAttrName⟩]

/-- What is reported of attributes that are written from byte `pos` on. -/
def attrReports (pos : Nat) : List WrittenAttr → List Diagnostic
  | [] => []
  | a :: attrs => nameReports (pos + 1) a.name ++ attrReports (pos + a.text.size) attrs

/-! ## 2. Reading a part of a run -/

namespace Assembly

/-- Reading `x`, from byte `pos` of the run on and with `rest` behind it, makes of `b` an assembly
with `P`. -/
def Reads (b : Assembly) (run : RawRun) (pos : Nat) (x rest : Text) (P : Assembly → Prop) : Prop :=
  ∃ b', b.read run pos none (x ++ rest) = b'.read run (pos + x.size) none rest ∧ P b'

section Reads

variable {b : Assembly} {run : RawRun} {pos : Nat} {x y rest : Text} {P Q : Assembly → Prop}
  {mark : Mark} {next : Context} {c : Char} {cs : Text}

theorem Reads.nil (h : P b) : b.Reads run pos [] rest P := ⟨b, rfl, h⟩

/-- One part after the other. -/
theorem Reads.trans (h : b.Reads run pos x (y ++ rest) P)
    (h' : ∀ b', P b' → b'.Reads run (pos + x.size) y rest Q) : b.Reads run pos (x ++ y) rest Q := by
  obtain ⟨b', hread, hb'⟩ := h
  obtain ⟨b'', hread', hb''⟩ := h' b' hb'
  exact ⟨b'', by rw [List.append_assoc, hread, hread', Text.size_append, Nat.add_assoc], hb''⟩

/-- A mark is read. -/
theorem reads_mark (ht : x ++ rest = c :: cs)
    (hl : b.context.lexeme c cs = Lexeme.marking mark next x.length)
    (h : P (b.apply mark next x (run.location pos (pos + x.size)))) :
    b.Reads run pos x rest P := by
  refine ⟨_, ?_, h⟩
  rw [ht, read_cons_mark hl, ← ht, List.take_left, List.drop_left]
  rfl

/-- A mark is read, and what comes after it. -/
theorem reads_mark_append (ht : x ++ (y ++ rest) = c :: cs)
    (hl : b.context.lexeme c cs = Lexeme.marking mark next x.length)
    (h : (b.apply mark next x (run.location pos (pos + x.size))).Reads run (pos + x.size) y rest
      P) : b.Reads run pos (x ++ y) rest P :=
  Reads.trans (P := Eq _) (reads_mark ht hl rfl) fun _ hb' => hb' ▸ h

/-- A lexeme without characters is read that shows a name to be illegal. -/
theorem reads_illegal
    (hl : b.context.lexeme c cs = (Lexeme.marking mark next 0).faulty .illegalAttrName)
    (h : P ((b.report (run.location pos (pos + c.utf8Size)) .illegalAttrName).apply mark next []
      (run.location pos pos))) : b.Reads run pos [] (c :: cs) P := by
  have hm : (b.context.lexeme c cs).mark = some mark := by
    rw [hl]
    rfl
  refine ⟨_, ?_, h⟩
  rw [List.nil_append, read_of_mark hm]
  simp [hl, Lexeme.marking, Lexeme.faulty, reportLexeme, release]

/-- Content is read, with the mark that ends it. -/
theorem reads_content {d : Char} {ds : Text} (ht : y ++ rest = d :: ds)
    (hc : b.context.lexeme c (cs ++ d :: ds) = Lexeme.content b.context (cs.length + 1))
    (hl : b.context.lexeme d ds = Lexeme.marking mark next y.length)
    (h : ∀ loc loc', P ((b.addText (c :: cs) loc).apply mark next y loc')) :
    b.Reads run pos (c :: cs ++ y) rest P := by
  refine ⟨_, ?_, h (run.location pos (pos + Text.size (c :: cs)))
    (run.location (pos + Text.size (c :: cs)) (pos + Text.size (c :: cs) + y.size))⟩
  rw [List.append_assoc, ht, List.cons_append, read_cons_content hc, enter_self, ← List.cons_append,
    ← List.length_cons, List.take_left, List.drop_left, read_cons_mark hl, ← ht, List.take_left,
    List.drop_left, Text.size_append, Nat.add_assoc]
  simp only [release, Held.text_add_none]
  rfl

/-- A single node of text is read. -/
theorem Reads.feedNodes {s : Text} {loc : Span}
    (h : Reads { b with ledger := b.ledger.countRun } (.single s loc) 0 s [] P) (id : NodeId) :
    ∃ b' stop, P b' ∧ feedNodes b none [.raw id loc s] = { b' with offset := stop } := by
  obtain ⟨b', hread, hb'⟩ := h
  rw [List.append_nil, Assembly.read] at hread
  refine ⟨b', (RawRun.single s loc).locateEnd s.size, hb', ?_⟩
  rw [TemplateMarkup.feedNodes]
  dsimp only [Node.rawText?, collect, Node.location]
  rw [TemplateMarkup.feedNodes]
  dsimp only [readCollected, readRun]
  rw [RawRun.text_single, hread]
  rfl

end Reads

/-! ## 3. In an open tag -/

end Assembly

/-- How far an open tag has been read: its name, the attributes it has got and the reports that have
been made, both with the latest first. -/
structure TagSoFar where
  name : Text
  attrs : List Node
  reports : List Diagnostic

/-- The tag as a draft. -/
def TagSoFar.draft (t : TagSoFar) : TagDraft where
  close := false
  start := 0
  nameText := []
  nameLocation := default
  name := some (.raw default default t.name)
  children := t.attrs
  element := none
  warned := false

/-- The draft of an attribute of whose name `u` has been read. -/
def AttrDraft.reading (u : Text) (discard : Bool) : AttrDraft := ⟨0, u, default, none, discard⟩

/-- The draft, with its name finished. -/
def AttrDraft.finished (a : AttrDraft) : AttrDraft :=
  if a.name.isNone && !a.nameText.isEmpty then
    { a with nameText := [], name := some (.raw default default a.nameText) }
  else a

/-- The draft is of an attribute that has this name, or it is dropped if that is illegal. -/
structure AttrDraft.IsNamed (a : AttrDraft) (n : Text) : Prop where
  discard : a.discard = !isAttrName n
  name : isAttrName n = true → a.name = some (.raw default default n)

theorem AttrDraft.isNamed_reading {n : Text} (hn : n ≠ []) (h : isAttrName n = true) :
    (AttrDraft.reading n false).finished.IsNamed n := by
  constructor <;> simp [finished, reading, hn, h]

theorem AttrDraft.isNamed_of_discard {a : AttrDraft} {n : Text} (ha : a.discard = true)
    (h : isAttrName n = false) : a.finished.IsNamed n := by
  refine ⟨?_, by simp [h]⟩
  unfold finished
  split <;> simp [ha, h]

/-- The tag with these reports as well. -/
def TagSoFar.reporting (t : TagSoFar) (reports : List Diagnostic) : TagSoFar :=
  { t with reports := reports ++ t.reports }

/-- The tag with one more attribute, if its name is legal. -/
def TagSoFar.add (t : TagSoFar) (n : Text) (value : Option Node) : TagSoFar :=
  if isAttrName n then
    { t with attrs := .attr default default (.raw default default n) value :: t.attrs }
  else t

namespace Assembly

/-- The assembly is in an open tag that has been read as far as `t`, with at most an attribute and
its value open in it. -/
structure Within (b : Assembly) (t : TagSoFar) (here : Context) (attr : Option AttrDraft)
    (value : Option ValueDraft) : Prop where
  out : b.out = []
  comment : b.comment = none
  tag : b.tag.map TagDraft.bare = some t.draft
  context : b.context = here
  attr : b.attr.map AttrDraft.bare = attr
  value : b.value.map ValueDraft.bare = value
  reports : b.ledger.diagnostics = t.reports

section Within

variable {b : Assembly} {t : TagSoFar} {here : Context} {a : AttrDraft} {attr : Option AttrDraft}
  {value : Option ValueDraft}

theorem enter_diagnostics (b : Assembly) (next : Context) (offset : Nat) :
    (b.enter next offset).ledger.diagnostics = b.ledger.diagnostics := by
  unfold enter
  split <;> rfl

theorem Within.enter (h : b.Within t here attr value) (next : Context) (offset : Nat) :
    (b.enter next offset).Within t next attr value := by
  refine ⟨?_, ?_, ?_, enter_context .., ?_, ?_, ?_⟩
  · rw [enter_out, h.out]
  · rw [enter_comment, h.comment]
  · rw [enter_tag, h.tag]
  · rw [enter_attr, h.attr]
  · rw [enter_value, h.value]
  · rw [enter_diagnostics, h.reports]

theorem Within.report (h : b.Within t here attr value) (loc : Span) (fault : Fault) :
    (b.report loc fault).Within (t.reporting [⟨loc, fault⟩]) here attr value :=
  ⟨h.out, h.comment, h.tag, h.context, h.attr, h.value, congrArg _ h.reports⟩

/-- In an open tag an attribute may start. -/
theorem Within.openAttr (h : b.Within t here attr value) (loc : Span) (discard : Bool) :
    (b.openAttr loc none discard).Within t here (some (.reading [] discard)) value
      ∧ b.attrFault? = none := by
  obtain ⟨tag, htag, hbare⟩ := Option.map_eq_some_iff.mp h.tag
  have hclose : tag.close = false := congrArg TagDraft.close hbare
  have hfault : b.attrFault? = none := by
    unfold attrFault?
    rw [htag]
    simp [hclose]
  refine ⟨⟨?_, ?_, ?_, ?_, ?_, ?_, ?_⟩, hfault⟩ <;>
    simp only [Assembly.openAttr, reportAttr, hfault]
  · exact h.out
  · exact h.comment
  · exact h.tag
  · exact h.context
  · simp [AttrDraft.bare, AttrDraft.reading]
  · exact h.value
  · exact h.reports

theorem Within.addAttrName (h : b.Within t here (some a) value) (ha : a.discard = false)
    (text : Text) (loc : Span) : (b.addAttrName text loc).Within t here
      (some { a with nameText := a.nameText ++ text }) value := by
  obtain ⟨attr, hattr, rfl⟩ := Option.map_eq_some_iff.mp h.attr
  replace ha : attr.discard = false := ha
  unfold Assembly.addAttrName
  simp only [hattr, ha, Bool.false_eq_true, if_false]
  exact ⟨h.out, h.comment, h.tag, h.context, by simp [AttrDraft.bare, ha], h.value, h.reports⟩

theorem Within.discardAttr (h : b.Within t here (some a) value) :
    b.discardAttr.Within t here (some { a with discard := true }) value := by
  obtain ⟨attr, hattr, rfl⟩ := Option.map_eq_some_iff.mp h.attr
  refine ⟨h.out, h.comment, h.tag, h.context, ?_, h.value, h.reports⟩
  simp only [Assembly.discardAttr, hattr]
  rfl

theorem Within.finishAttrName (h : b.Within t here (some a) value) :
    b.finishAttrName.Within t here (some a.finished) value := by
  obtain ⟨attr, hattr, rfl⟩ := Option.map_eq_some_iff.mp h.attr
  unfold Assembly.finishAttrName AttrDraft.finished
  simp only [hattr, AttrDraft.bare, Option.isNone_map]
  split
  · exact ⟨h.out, h.comment, h.tag, h.context, by simp [AttrDraft.bare, Node.bare], h.value,
      h.reports⟩
  · exact ⟨h.out, h.comment, h.tag, h.context, by rw [hattr]; rfl, h.value, h.reports⟩

theorem Within.addAttr (h : b.Within t here none value) {n : Text} (ha : a.bare.IsNamed n)
    (v : Option Node) (stop : Nat) :
    (b.addAttr a v stop).Within (t.add n (v.map Node.bare)) here none value := by
  have hdiscard : a.discard = !isAttrName n := ha.discard
  unfold Assembly.addAttr TagSoFar.add
  rw [hdiscard]
  cases hn : isAttrName n with
  | false => exact h
  | true =>
    obtain ⟨name, hname, hbare⟩ := Option.map_eq_some_iff.mp (ha.name hn)
    obtain ⟨tag, htag, hdraft⟩ := Option.map_eq_some_iff.mp h.tag
    simp only [Bool.not_true, Bool.false_eq_true, if_false, hname, addAmongAttrs, htag, if_true]
    refine ⟨h.out, h.comment, ?_, h.context, h.attr, h.value, h.reports⟩
    simp only [TagDraft.bare, TagSoFar.draft, TagDraft.mk.injEq] at hdraft
    have hnode (id : NodeId) (loc : Span) : (Node.attr id loc name v).bare
        = .attr default default (.raw default default n) (v.map Node.bare) := by
      cases v <;> simp [Node.bare, hbare]
    simp [TagDraft.bare, TagSoFar.draft, hdraft, hnode]

theorem Within.endAttr (h : b.Within t here (some a) value) {n : Text} (ha : a.finished.IsNamed n)
    (stop : Nat) : (b.endAttr stop).Within (t.add n none) here none value := by
  have hf := h.finishAttrName
  obtain ⟨attr, hattr, hbare⟩ := Option.map_eq_some_iff.mp hf.attr
  unfold Assembly.endAttr
  simp only [hattr]
  rw [← hbare] at ha
  have hout : ({ b.finishAttrName with attr := none } : Assembly).Within t here none value :=
    ⟨hf.out, hf.comment, hf.tag, hf.context, rfl, hf.value, hf.reports⟩
  exact hout.addAttr ha none stop

theorem Within.addText {quotes : Quotes}
    (h : b.Within t (.attrValue quotes) attr (some ⟨quotes, 0, []⟩)) (text : Text) (loc : Span) :
    (b.addText text loc).Within t (.attrValue quotes) attr
      (some ⟨quotes, 0, [.raw default default text]⟩) := by
  obtain ⟨v, hv, hbare⟩ := Option.map_eq_some_iff.mp h.value
  obtain ⟨q, start, children⟩ := v
  simp only [ValueDraft.bare, ValueDraft.mk.injEq] at hbare
  obtain ⟨rfl, -, hchildren⟩ := hbare
  obtain rfl : children = [] := by simpa [bare_eq_map] using hchildren
  unfold Assembly.addText content setContent
  simp only [h.context, hv]
  refine ⟨h.out, h.comment, h.tag, rfl, h.attr, ?_, h.reports⟩
  simp [ValueDraft.bare, Node.bare]

theorem Within.endValue {quotes : Quotes} {children : List Node}
    (h : b.Within t here (some a) (some ⟨quotes, 0, children⟩)) {n : Text} (ha : a.IsNamed n)
    (stop : Nat) : (b.endValue stop).Within
      (t.add n (some (.attrValue default default quotes children.reverse))) here none none := by
  obtain ⟨v, hv, hbare⟩ := Option.map_eq_some_iff.mp h.value
  obtain ⟨attr, hattr, rfl⟩ := Option.map_eq_some_iff.mp h.attr
  obtain ⟨q, start, nodes⟩ := v
  simp only [ValueDraft.bare, ValueDraft.mk.injEq] at hbare
  obtain ⟨rfl, -, rfl⟩ := hbare
  unfold Assembly.endValue giveValue
  simp only [hv, hattr]
  have hout : ({ b with ledger := b.ledger.drawnForHtml, value := none, attr := none } :
      Assembly).Within t here none none :=
    ⟨h.out, h.comment, h.tag, h.context, rfl, rfl, h.reports⟩
  have := hout.addAttr ha (some (.attrValue b.ledger.ids.next (.upTo start stop) q nodes.reverse))
    stop
  rw [Option.map_some, Node.bare, bare_reverse] at this
  exact this

end Within

/-! ## 4. Names -/

end Assembly

/-- Bytes of the run stand at the same offsets of the source. -/
def RawRun.IsSource (run : RawRun) : Prop := ∀ i j, run.location i j = Span.upTo i j

/-- Characters that end a name take one byte. -/
theorem utf8Size_of_atEnd {c : Char} (h : (endsName c || c == '=') = true) : c.utf8Size = 1 := by
  simp only [endsName, isAsciiBlank, Bool.or_eq_true, beq_iff_eq] at h
  rcases h with ((((((rfl | rfl) | rfl) | rfl) | rfl) | rfl) | rfl) | rfl <;> decide

namespace Assembly

/-- The name of an attribute has been read, or dropped from where it showed to be illegal on. -/
def PastName (b : Assembly) (t : TagSoFar) (n : Text) : Prop :=
  ∃ part a, b.Within t (.attrName part false (!isAttrName n)) (some a) none
    ∧ a.finished.IsNamed n

section Names

variable {b : Assembly} {run : RawRun} {t : TagSoFar} {a : AttrDraft} {n : Text}

/-- What is left of a name that is dropped is skipped. -/
theorem reads_dropped {part : NamePart} (hn : isAttrName n = false) (ha : a.discard = true) :
    ∀ {x rest : Text} {pos : Nat} {b : Assembly},
      b.Within t (.attrName part false true) (some a) none →
      (∀ c ∈ x, (endsName c || c == '=') = false) →
      b.Reads run pos x rest fun b' => b'.PastName t n
  | [], rest, pos, b, h, _ =>
    .nil ⟨part, a, by rw [hn]; exact h, AttrDraft.isNamed_of_discard ha hn⟩
  | c :: x, rest, pos, b, h, hx => by
    have hl : b.context.lexeme c (x ++ rest)
        = Lexeme.marking .skip (.attrName part false true) 1 := by
      rw [h.context, Context.lexeme]
      simp [Lexeme.inAttrNameAt, hx c List.mem_cons_self]
    have hin (loc : Span) : (b.apply .skip (.attrName part false true) [c] loc).Within t
        (.attrName part false true) (some a) none := by
      have hctx : b.context.discards = true := by
        rw [h.context]
        rfl
      simp only [apply, hctx, Bool.not_true, Bool.and_false, Bool.false_eq_true, if_false]
      exact h.enter _ _
    exact reads_mark_append (x := [c]) rfl hl (reads_dropped hn ha (hin _) fun d hd =>
      hx d (List.mem_cons_of_mem _ hd))

/-- **A name that shows to be illegal is reported, and the rest of it is dropped.** -/
theorem reads_spoiled (hrun : run.IsSource) {part : NamePart} {sep : Bool} {c : Char}
    {x cs rest : Text} {pos : Nat} (h : b.Within t (.attrName part sep false) (some a) none)
    (hn : isAttrName n = false) (ht : x ++ rest = c :: cs)
    (hx : ∀ d ∈ x, (endsName d || d == '=') = false)
    (hl : b.context.lexeme c cs
      = (Lexeme.marking .skip (.attrName part false true) 0).faulty .illegalAttrName) :
    b.Reads run pos x rest fun b' => b'.PastName
      (t.reporting [⟨.upTo pos (pos + c.utf8Size), .illegalAttrName⟩]) n := by
  refine Reads.trans (x := []) (P := fun b' => b'.Within
    (t.reporting [⟨.upTo pos (pos + c.utf8Size), .illegalAttrName⟩]) (.attrName part false true)
    (some { a with discard := true }) none) ?_ fun _ hin => reads_dropped hn rfl hin hx
  rw [ht]
  refine reads_illegal hl ?_
  rw [hrun]
  have hctx : (b.report (.upTo pos (pos + c.utf8Size)) .illegalAttrName).context.discards
      = false := by
    rw [(h.report _ _).context]
    rfl
  have hnext : (Context.attrName part false true).discards = true := rfl
  simp only [apply, hctx, hnext, Bool.not_false, Bool.and_true, if_true]
  exact (h.report _ _).discardAttr.enter _ _

/-- One more character of a name is read. -/
theorem reads_nameChar {part : NamePart} {sep next : Bool} {u rest : Text} {c : Char} {pos : Nat}
    (h : b.Within t (.attrName part sep false) (some (.reading u false)) none)
    (hl : b.context.lexeme c rest = Lexeme.marking .attrNameChar (.attrName .static next false) 1) :
    b.Reads run pos [c] rest fun b' =>
      b'.Within t (.attrName .static next false) (some (.reading (u ++ [c]) false)) none :=
  reads_mark rfl hl ((h.addAttrName rfl [c] _).enter _ _)

/-- The characters of a name after the first `u` are read, up to where it shows to be illegal. -/
theorem reads_nameChars (hrun : run.IsSource) {start : Nat} {d : Char} {ds : Text}
    (hd : (endsName d || d == '=') = true) :
    ∀ {cs u : Text} {sep : Bool} {pos : Nat} {b : Assembly}, u ≠ [] →
      isAttrName (u ++ cs) = continuesAttrName sep cs →
      illegalAt start (u ++ cs) = illegalAfter pos sep cs →
      b.Within t (.attrName .static sep false) (some (.reading u false)) none →
      (∀ c ∈ cs, (endsName c || c == '=') = false) →
      b.Reads run pos cs (d :: ds) fun b' =>
        b'.PastName (t.reporting (nameReports start (u ++ cs))) (u ++ cs)
  | [], u, false, pos, b, hu, hlegal, _, h, _ => by
    rw [List.append_nil] at hlegal ⊢
    replace hlegal : isAttrName u = true := hlegal
    rw [nameReports, if_pos hlegal]
    exact .nil ⟨.static, _, by rw [hlegal]; exact h, AttrDraft.isNamed_reading hu hlegal⟩
  | [], u, true, pos, b, _, hlegal, hat, h, _ => by
    replace hlegal : isAttrName (u ++ []) = false := hlegal
    rw [nameReports, hlegal, hat, illegalAfter, ← utf8Size_of_atEnd hd]
    refine reads_spoiled hrun h hlegal rfl (by simp) ?_
    rw [h.context, Context.lexeme]
    simp [Lexeme.inAttrNameAt, hd]
  | c :: cs, u, sep, pos, b, hu, hlegal, hat, h, hx => by
    have hc := hx c List.mem_cons_self
    -- one more character of the name, and what is left of it
    have step {next : Bool}
        (hlegal : isAttrName (u ++ c :: cs) = continuesAttrName next cs)
        (hat : illegalAt start (u ++ c :: cs) = illegalAfter (pos + c.utf8Size) next cs)
        (hl : b.context.lexeme c (cs ++ d :: ds)
          = Lexeme.marking .attrNameChar (.attrName .static next false) 1) :
        b.Reads run pos (c :: cs) (d :: ds) fun b' =>
          b'.PastName (t.reporting (nameReports start (u ++ c :: cs))) (u ++ c :: cs) := by
      rw [show u ++ c :: cs = u ++ [c] ++ cs by simp] at hlegal hat ⊢
      exact (reads_nameChar h hl).trans fun b' hb' =>
        reads_nameChars hrun hd (by simp) hlegal hat hb'
          fun e he => hx e (List.mem_cons_of_mem _ he)
    have hlexeme : b.context.lexeme c (cs ++ d :: ds)
        = Lexeme.inAttrNameAt .static sep false c := by rw [h.context, Context.lexeme]
    rw [continuesAttrName] at hlegal
    rw [illegalAfter] at hat
    split at hlegal
    · next hin =>
      rw [if_pos hin] at hat
      exact step hlegal hat (by rw [hlexeme]; simp [Lexeme.inAttrNameAt, hc, hin])
    · next hin =>
      rw [if_neg hin] at hat
      cases hsep : separatesAttrName c && !sep with
      | true =>
        rw [hsep, Bool.true_and] at hlegal
        rw [hsep, if_pos rfl] at hat
        exact step hlegal hat (by rw [hlexeme]; simp [Lexeme.inAttrNameAt, hc, hin, hsep])
      | false =>
        rw [hsep, Bool.false_and] at hlegal
        rw [hsep, if_neg (by simp)] at hat
        rw [nameReports, hlegal, hat]
        refine reads_spoiled hrun h hlegal rfl hx ?_
        rw [List.append_eq, hlexeme]
        simp [Lexeme.inAttrNameAt, hc, hin, hsep]

/-- **A name is read, or dropped.** -/
theorem reads_name (hrun : run.IsSource) {d : Char} {ds : Text}
    (hd : (endsName d || d == '=') = true) {pos : Nat} (h : b.Within t .beforeAttrName none none)
    (hn : n ≠ []) (hx : ∀ c ∈ n, (endsName c || c == '=') = false) :
    b.Reads run pos n (d :: ds) fun b' =>
      b'.PastName (t.reporting (nameReports pos n)) n := by
  obtain ⟨c, cs, rfl⟩ := List.exists_cons_of_ne_nil hn
  have hc := hx c List.mem_cons_self
  have hlexeme : b.context.lexeme c (cs ++ d :: ds)
      = if startsAttrName c then Lexeme.marking .attrNameStart (.attrName .empty false false) 0
        else (Lexeme.marking .attrNameStart (.attrName .empty false true) 0).faulty
          .illegalAttrName := by
    rw [Bool.or_eq_false_iff, endsName, Bool.or_eq_false_iff, Bool.or_eq_false_iff] at hc
    obtain ⟨⟨⟨hblank, hslash⟩, hangle⟩, -⟩ := hc
    rw [h.context, Context.lexeme]
    simp [Lexeme.inTag, hblank, ne_of_beq_false hslash, ne_of_beq_false hangle]
  have hopen {b : Assembly} {t : TagSoFar} (h : b.Within t .beforeAttrName none none)
      (drop : Bool) (loc : Span) :
      (b.apply .attrNameStart (.attrName .empty false drop) [] loc).Within t
        (.attrName .empty false drop) (some (.reading [] drop)) none := by
    obtain ⟨hin, hfault⟩ := h.openAttr (Span.point loc.start) drop
    simp only [apply, hfault, Option.isSome_none, Context.refusing, Context.discards, Bool.or_false]
    exact hin.enter _ _
  cases hstart : startsAttrName c with
  | true =>
    rw [hstart, if_pos rfl] at hlexeme
    have hopened : b.Reads run pos [] (c :: cs ++ d :: ds) fun b' => b'.Within t
        (.attrName .empty false false) (some (.reading [] false)) none :=
      reads_mark rfl hlexeme (hopen h false _)
    refine hopened.trans fun b' hb' => ?_
    have hchar : b'.context.lexeme c (cs ++ d :: ds)
        = Lexeme.marking .attrNameChar (.attrName .static false false) 1 := by
      rw [hb'.context, Context.lexeme]
      simp [Lexeme.inAttrNameAt, hc, hstart]
    refine (reads_nameChar hb' hchar).trans fun b'' hb'' => ?_
    refine reads_nameChars hrun hd (u := [c]) (by simp) ?_ ?_ hb''
      fun e he => hx e (List.mem_cons_of_mem _ he)
    · simp [isAttrName, hstart]
    · simp [illegalAt, hstart]
  | false =>
    rw [hstart, if_neg (by simp)] at hlexeme
    have hlegal : isAttrName (c :: cs) = false := by rw [isAttrName, hstart, Bool.false_and]
    have hreports : nameReports pos (c :: cs)
        = [⟨run.location pos (pos + c.utf8Size), .illegalAttrName⟩] := by
      rw [nameReports, hlegal, illegalAt, hstart, hrun]
      rfl
    rw [hreports]
    have hopened : b.Reads run pos [] (c :: cs ++ d :: ds) fun b' => b'.Within
        (t.reporting [⟨run.location pos (pos + c.utf8Size), .illegalAttrName⟩])
        (.attrName .empty false true) (some (.reading [] true)) none :=
      reads_illegal hlexeme (hopen (h.report _ _) true _)
    exact hopened.trans fun _ hin => reads_dropped hlegal rfl hin hx

end Names

/-! ## 5. Attributes -/

section Attributes

variable {b : Assembly} {run : RawRun} {t : TagSoFar} {pos : Nat} {n : Text} {a : WrittenAttr}

/-- What ends a value without quotes ends a name. -/
theorem endsName_of_inBareValue {c : Char} (h : Lexeme.inBareValue c = false) :
    endsName c = true := by
  simp only [Lexeme.inBareValue, Bool.and_eq_false_iff, Bool.not_eq_false',
    bne_eq_false_iff_eq] at h
  rcases h with h | rfl
  · rw [endsName, h]
    rfl
  · decide

/-- Behind a name comes its end or the `=`, whether it is dropped or not. -/
theorem lexeme_pastName {part : NamePart} {drop : Bool} {c : Char} (cs : Text)
    (hc : (endsName c || c == '=') = true) :
    (Context.attrName part false drop).lexeme c cs = Lexeme.atAttrNameEnd c := by
  rw [Context.lexeme]
  cases drop <;> cases part <;> simp [Lexeme.inAttrNameAt, hc]

/-- An attribute without a value ends with its name. -/
theorem reads_nameEnd (h : b.PastName t n) {d : Char} (ds : Text)
    (hd : endsName d = true) : b.Reads run pos [] (d :: ds) fun b' =>
      b'.Within (t.add n none) .beforeAttrName none none := by
  obtain ⟨part, draft, hin, hnamed⟩ := h
  have hl : b.context.lexeme d ds = Lexeme.marking .attrNameEnd .beforeAttrName 0 := by
    rw [hin.context, lexeme_pastName ds (by rw [hd, Bool.true_or]), Lexeme.atAttrNameEnd, if_neg]
    rintro rfl
    revert hd
    decide
  exact reads_mark rfl hl ((hin.endAttr hnamed _).enter _ _)

/-- A plain value is content between its quotes. -/
theorem admits_of_plain {quotes : Quotes} {text : Text}
    (h : (⟨n, some (quotes, text)⟩ : WrittenAttr).valueIsPlain = true) :
    (Context.attrValue quotes).admits text = true := by
  rw [WrittenAttr.valueIsPlain, Bool.and_eq_true] at h
  rw [Context.admits]
  cases hq : quotes.char? with
  | some quote =>
    rw [hq] at h
    exact h.2
  | none =>
    rw [hq] at h
    cases text with
    | nil => rfl
    | cons c cs =>
      simp only [Bool.and_eq_true] at h
      exact h.2.2

/-- A value ends with its quote, or before a character that it may not hold. -/
theorem lexeme_valueEnd {quotes : Quotes} {d e : Char} {ds es : Text}
    (hd : Lexeme.inBareValue d = false) (h : quotes.char?.toList ++ d :: ds = e :: es) :
    (Context.attrValue quotes).lexeme e es
      = Lexeme.marking .valueEnd .beforeAttrName quotes.char?.toList.length := by
  cases quotes <;> obtain ⟨rfl, rfl⟩ := List.cons.inj h <;>
    simp [Context.lexeme, Lexeme.inValue, Quotes.char?, hd]

/-- A value that is plain begins with its quote, or with itself. -/
theorem lexeme_valueStart {quotes : Quotes} {text : Text} {e : Char} {rest es : Text}
    (hplain : (⟨n, some (quotes, text)⟩ : WrittenAttr).valueIsPlain = true)
    (h : quotes.char?.toList ++ (text ++ rest) = e :: es) :
    Context.beforeAttrValue.lexeme e es = Lexeme.marking (.valueStart quotes) (.attrValue quotes)
      quotes.char?.toList.length := by
  cases quotes with
  | single | double =>
    obtain ⟨rfl, rfl⟩ := List.cons.inj h
    exact (by rfl)
  | bare =>
    cases text with
    | nil => simp [WrittenAttr.valueIsPlain, Quotes.char?] at hplain
    | cons c cs =>
      obtain ⟨rfl, rfl⟩ := List.cons.inj h
      simp only [WrittenAttr.valueIsPlain, Quotes.char?, List.all_cons, Bool.and_eq_true,
        Bool.not_eq_true', bne_iff_ne, ne_eq] at hplain
      obtain ⟨-, ⟨hdouble, hsingle⟩, ⟨hblank, -⟩, -⟩ := hplain
      simp [Context.lexeme, Lexeme.beforeValue, Quotes.char?, hblank, hdouble, hsingle]

/-- **A plain value is read.** -/
theorem reads_value {quotes : Quotes} {text : Text} {draft : AttrDraft}
    (h : b.Within t .beforeAttrValue (some draft) none) (hnamed : draft.IsNamed n)
    {d : Char} {ds : Text} (hd : Lexeme.inBareValue d = false)
    (hplain : (⟨n, some (quotes, text)⟩ : WrittenAttr).valueIsPlain = true) :
    b.Reads run pos (quotes.around text) (d :: ds) fun b' =>
      b'.Within (t.add n (⟨n, some (quotes, text)⟩ : WrittenAttr).valueNode) .beforeAttrName none
        none := by
  have hopen : b.Reads run pos quotes.char?.toList (text ++ quotes.char?.toList ++ d :: ds)
      fun b' => b'.Within t (.attrValue quotes) (some draft) (some ⟨quotes, 0, []⟩) := by
    have hne : quotes.char?.toList ++ (text ++ (quotes.char?.toList ++ d :: ds)) ≠ [] := by simp
    obtain ⟨e, es, he⟩ := List.exists_cons_of_ne_nil hne
    have hl := lexeme_valueStart hplain he
    rw [← h.context] at hl
    have hvalue (offset : Nat) : ({ b with value := some ⟨quotes, offset, []⟩ } : Assembly).Within t
        .beforeAttrValue (some draft) (some ⟨quotes, 0, []⟩) :=
      ⟨h.out, h.comment, h.tag, h.context, h.attr, rfl, h.reports⟩
    exact reads_mark (by rw [List.append_assoc, he]) hl ((hvalue _).enter _ _)
  have hne : quotes.char?.toList ++ d :: ds ≠ [] := by simp
  obtain ⟨e, es, he⟩ := List.exists_cons_of_ne_nil hne
  have hl := lexeme_valueEnd hd he
  have hclose {b : Assembly} {children : List Node} (loc : Span) (x : Text)
      (h : b.Within t (.attrValue quotes) (some draft) (some ⟨quotes, 0, children⟩)) :
      (b.apply .valueEnd .beforeAttrName x loc).Within
        (t.add n (some (.attrValue default default quotes children.reverse))) .beforeAttrName none
        none := by
    obtain ⟨v, hv, -⟩ := Option.map_eq_some_iff.mp h.value
    simp only [apply, hv]
    exact (h.endValue hnamed _).enter _ _
  rw [Quotes.around, List.append_assoc]
  refine hopen.trans fun b' hb' => ?_
  rw [← hb'.context] at hl
  cases text with
  | nil => exact reads_mark he hl (hclose _ _ hb')
  | cons c cs =>
    have hbreaks : (Context.attrValue quotes).Breaks (e :: es) := by
      rintro c cs hcons
      obtain ⟨rfl, rfl⟩ := List.cons.inj hcons
      rw [← hb'.context]
      exact ⟨_, _, _, hl⟩
    have hc := Context.lexeme_of_admits (admits_of_plain hplain) hbreaks
    rw [← hb'.context] at hc
    exact reads_content he hc hl fun loc loc' => hclose _ _ (hb'.addText _ _)

/-- The name of an attribute is finished at the `=` behind it. -/
theorem reads_equals (h : b.PastName t n) (rest : Text) :
    b.Reads run pos ['='] rest fun b' => ∃ draft, b'.Within t .beforeAttrValue (some draft) none
      ∧ draft.IsNamed n := by
  obtain ⟨part, draft, hin, hnamed⟩ := h
  have hl : b.context.lexeme '=' rest = Lexeme.marking .attrEquals .beforeAttrValue 1 := by
    rw [hin.context, lexeme_pastName rest (by decide)]
    rfl
  exact reads_mark rfl hl ⟨_, hin.finishAttrName.enter _ _, hnamed⟩

/-- A space before a name is skipped. -/
theorem reads_space (h : b.Within t .beforeAttrName none none) {c : Char} (cs : Text)
    (hc : isAsciiBlank c = false) : b.Reads run pos [' '] (c :: cs) fun b' =>
      b'.Within t .beforeAttrName none none := by
  have hl : b.context.lexeme ' ' (c :: cs) = Lexeme.marking .skip .beforeAttrName 1 := by
    have hrun : Text.run isAsciiBlank (' ' :: c :: cs) = 1 := by
      simp [Text.run, hc, show isAsciiBlank ' ' = true by decide]
    rw [h.context, Context.lexeme, Lexeme.inTag, hrun]
    rfl
  exact reads_mark rfl hl (h.enter _ _)

/-- **An attribute is read**: it is added to the tag, or reported and dropped. -/
theorem reads_attr (hrun : run.IsSource) (h : b.Within t .beforeAttrName none none)
    (hname : a.nameIsPlain = true) (hvalue : a.valueIsPlain = true) {d : Char} {ds : Text}
    (hd : Lexeme.inBareValue d = false) :
    b.Reads run pos a.text (d :: ds) fun b' =>
      b'.Within ((t.reporting (nameReports (pos + 1) a.name)).add a.name a.valueNode)
        .beforeAttrName none none := by
  obtain ⟨n, value⟩ := a
  simp only [WrittenAttr.nameIsPlain, Bool.and_eq_true, Bool.not_eq_true',
    List.isEmpty_eq_false_iff, List.all_eq_true, bne_iff_ne, ne_eq] at hname
  obtain ⟨hne, hall⟩ := hname
  have hx : ∀ c ∈ n, (endsName c || c == '=') = false := by
    intro c hc
    obtain ⟨⟨⟨⟨hblank, hslash⟩, hangle⟩, hequals⟩, -⟩ := hall c hc
    simp [endsName, hblank, hslash, hangle, hequals]
  have hnamed (e : Char) (es : Text) (he : (endsName e || e == '=') = true) :
      b.Reads run pos ([' '] ++ n) (e :: es) fun b' =>
        b'.PastName (t.reporting (nameReports (pos + 1) n)) n := by
    refine Reads.trans (P := fun b' => b'.Within t .beforeAttrName none none) ?_ fun b' hb' =>
      reads_name hrun he hb' hne hx
    obtain ⟨c, cs, rfl⟩ := List.exists_cons_of_ne_nil hne
    exact reads_space h _ (hall c List.mem_cons_self).1.1.1.1
  have hends : endsName d = true := endsName_of_inBareValue hd
  cases value with
  | none =>
    have htext : (⟨n, none⟩ : WrittenAttr).text = [' '] ++ n ++ [] := by
      simp [WrittenAttr.text, WrittenAttr.assignment]
    rw [htext]
    exact (hnamed d ds (by rw [hends, Bool.true_or])).trans fun _ hb' => reads_nameEnd hb' ds hends
  | some value =>
    obtain ⟨quotes, text⟩ := value
    have htext : (⟨n, some (quotes, text)⟩ : WrittenAttr).text
        = [' '] ++ n ++ (['='] ++ quotes.around text) := by
      simp [WrittenAttr.text, WrittenAttr.assignment]
    rw [htext]
    refine (hnamed '=' _ (by decide)).trans fun _ hb' => (reads_equals hb' _).trans ?_
    rintro b' ⟨draft, hin, hof⟩
    exact reads_value hin hof hd hvalue

/-- Attributes begin with a space: what stands before them or before a `>` is ended by them. -/
theorem exists_attrs_append (attrs : List WrittenAttr) {d : Char} (ds : Text)
    (hd : Lexeme.inBareValue d = false) : ∃ e es,
      attrs.flatMap WrittenAttr.text ++ d :: ds = e :: es ∧ Lexeme.inBareValue e = false := by
  cases attrs with
  | nil => exact ⟨d, ds, rfl, hd⟩
  | cons a attrs => exact ⟨' ', _, rfl, by decide⟩

/-- **Attributes are read, one after the other**: none takes part in what becomes of another. -/
theorem reads_attrs (hrun : run.IsSource) {d : Char} {ds : Text}
    (hd : Lexeme.inBareValue d = false) : ∀ {attrs : List WrittenAttr} {t : TagSoFar} {pos : Nat}
      {b : Assembly}, b.Within t .beforeAttrName none none →
      (∀ a ∈ attrs, a.nameIsPlain = true ∧ a.valueIsPlain = true) →
      b.Reads run pos (attrs.flatMap WrittenAttr.text) (d :: ds) fun b' => b'.Within
        ⟨t.name,
          ((attrs.filter fun a => isAttrName a.name).map WrittenAttr.node).reverse ++ t.attrs,
          (attrReports pos attrs).reverse ++ t.reports⟩ .beforeAttrName none none
  | [], t, pos, b, h, _ => .nil h
  | a :: attrs, t, pos, b, h, hplain => by
    obtain ⟨hname, hvalue⟩ := hplain a List.mem_cons_self
    obtain ⟨e, es, he, hends⟩ := exists_attrs_append attrs ds hd
    have hfirst : b.Reads run pos a.text (attrs.flatMap WrittenAttr.text ++ d :: ds) fun b' =>
        b'.Within ((t.reporting (nameReports (pos + 1) a.name)).add a.name a.valueNode)
          .beforeAttrName none none := by
      rw [he]
      exact reads_attr hrun h hname hvalue hends
    rw [List.flatMap_cons]
    refine hfirst.trans fun b' hb' => ?_
    obtain ⟨b'', hread, hb''⟩ :=
      reads_attrs hrun hd hb' fun a ha => hplain a (List.mem_cons_of_mem _ ha)
    refine ⟨b'', hread, ?_⟩
    cases hn : isAttrName a.name <;>
      simpa [TagSoFar.add, TagSoFar.reporting, nameReports, attrReports, hn, WrittenAttr.node]
        using hb''

end Attributes

/-! ## 6. Tags -/

section Tags

variable {b : Assembly} {run : RawRun} {t : TagSoFar} {pos : Nat} {n : Text}

/-- The start of a tag is read, with its name. -/
theorem reads_tagStart (hb : b.context = .pcdata) (hclosed : b.Closed) (hout : b.out = [])
    (hreports : b.ledger.diagnostics = []) (hn : isTagName n = true) {d : Char} (ds : Text)
    (hd : endsName d = true) : b.Reads run pos ('<' :: n) (d :: ds) fun b' =>
      b'.Within ⟨n, [], []⟩ .beforeAttrName none none := by
  obtain ⟨-, hattr, hvalue, hcomment⟩ := hclosed
  cases n with
  | nil => cases hn
  | cons c cs =>
    rw [isTagName, Bool.and_eq_true] at hn
    obtain ⟨hc, hcs⟩ := hn
    obtain ⟨h1, h2, h3⟩ := startsTagName_ne hc
    have hin := inTagName_of_startsTagName hc
    have hangle : b.context.lexeme '<' (c :: cs ++ d :: ds) = Lexeme.tagStart false 1 := by
      rw [hb, Context.lexeme, Lexeme.inPcdata, if_pos rfl, List.cons_append]
      unfold Lexeme.atAngle
      simp [Text.beginsWith, Text.after?, Ne.symm h1, Ne.symm h2, h3, hc]
    have hchars {b : Assembly} (h : b.context = .tagName .empty) :
        b.context.lexeme c (cs ++ d :: ds)
          = Lexeme.marking .tagNameChars (.tagName .static) (c :: cs).length := by
      have hstop : ∀ e es, d :: ds = e :: es → inTagName e = false := by
        rintro e es he
        obtain ⟨rfl, rfl⟩ := List.cons.inj he
        exact not_inTagName_of_endsName hd
      rw [h, Context.lexeme, Lexeme.inTagNameAt, if_pos hc, Text.run, if_pos hin,
        Text.run_append hstop hcs, List.length_cons]
    have hend {b : Assembly} (h : b.context = .tagName .static) : b.context.lexeme d ds
        = Lexeme.marking .tagNameEnd .beforeAttrName 0 := by
      rw [h, Context.lexeme, Lexeme.inTagNameAt, if_pos hd]
    have hsplit : '<' :: c :: cs = ['<'] ++ (c :: cs ++ []) := by simp
    rw [hsplit]
    refine reads_mark_append (by simp) hangle (reads_mark_append rfl (hchars (enter_context ..))
      (reads_mark rfl (hend (enter_context ..)) ?_))
    constructor <;>
      simp [apply, openTag, addTagName, finishTagName, hb, hattr, hvalue, hout, hcomment, hreports,
        enter_diagnostics, Ledger.drawn, TagDraft.bare, TagSoFar.draft, Node.bare]

/-- The end of a tag is read. -/
theorem reads_tagEnd (h : b.Within t .beforeAttrName none none)
    (hn : Rcdata.ofName? t.name = none) : b.Reads run pos ['>'] [] fun b' =>
      b'.context = .pcdata ∧ b'.Closed ∧ b'.ledger.diagnostics = t.reports
      ∧ TemplateMarkup.bare b'.out
        = [.openTag default default (.raw default default t.name) t.attrs.reverse false] := by
  have hl : b.context.lexeme '>' [] = Lexeme.marking (.tagEnd false) .pcdata 1 := by
    rw [h.context, Context.lexeme]
    exact (by decide)
  refine reads_mark rfl hl ?_
  obtain ⟨tag, htag, hdraft⟩ := Option.map_eq_some_iff.mp h.tag
  simp only [TagDraft.bare, TagSoFar.draft, TagDraft.mk.injEq] at hdraft
  obtain ⟨hclose, -, -, -, hname, hchildren, -, -⟩ := hdraft
  obtain ⟨name, hname, hbare⟩ := Option.map_eq_some_iff.mp hname
  have hrcdata : name.rcdata? = none := by
    rw [Node.rcdata?, ← Node.rawText?_bare, hbare]
    exact hn
  simp only [apply, htag, closeTag, hname, hclose, addOpenTag, hrcdata, Bool.false_eq_true,
    if_false]
  refine ⟨enter_context .., ⟨?_, ?_, ?_, ?_⟩, ?_, ?_⟩
  · rw [enter_tag]
  · rw [enter_attr]
    exact Option.map_eq_none_iff.mp h.attr
  · rw [enter_value]
    exact Option.map_eq_none_iff.mp h.value
  · rw [enter_comment]
    exact h.comment
  · rw [enter_diagnostics]
    exact h.reports
  · simp [h.out, Node.bare, hbare, hchildren]

/-- **A tag is read with its attributes.** -/
theorem reads_writtenTag (hrun : run.IsSource) (hb : b.context = .pcdata) (hclosed : b.Closed)
    (hout : b.out = []) (hreports : b.ledger.diagnostics = []) (hn : isTagName n = true)
    (hbody : Rcdata.ofName? n = none) {attrs : List WrittenAttr}
    (hattrs : ∀ a ∈ attrs, a.nameIsPlain = true ∧ a.valueIsPlain = true) :
    b.Reads run pos (writtenTag n attrs) [] fun b' => b'.context = .pcdata ∧ b'.Closed
      ∧ b'.ledger.diagnostics = (attrReports (pos + Text.size ('<' :: n)) attrs).reverse
      ∧ TemplateMarkup.bare b'.out = [.openTag default default (.raw default default n)
        ((attrs.filter fun a => isAttrName a.name).map WrittenAttr.node) false] := by
  obtain ⟨e, es, he, hends⟩ := exists_attrs_append (d := '>') attrs [] (by decide)
  have hstart : b.Reads run pos ('<' :: n) (attrs.flatMap WrittenAttr.text ++ ['>']) fun b' =>
      b'.Within ⟨n, [], []⟩ .beforeAttrName none none := by
    rw [he]
    exact reads_tagStart hb hclosed hout hreports hn es (endsName_of_inBareValue hends)
  have hangle : Lexeme.inBareValue '>' = false := by decide
  rw [writtenTag]
  refine (hstart.trans fun _ hin => reads_attrs hrun hangle hin hattrs).trans fun _ hin => ?_
  obtain ⟨b', hread, hcontext, hclosed, hdiagnostics, hnodes⟩ := reads_tagEnd hin hbody
  refine ⟨b', hread, hcontext, hclosed, ?_, ?_⟩
  · simpa using hdiagnostics
  · simpa using hnodes

end Tags

end Assembly

/-! ## 7. Templates -/

/-- A run that is one piece of the source, from its start on. -/
theorem RawRun.isSource_single {s : Text} {location : Span} (hstart : location.start = 0)
    (hstop : location.stop = s.size) : (RawRun.single s location).IsSource := by
  have hlocate (i : Nat) : location.locate s.size i = i := by
    simp [Span.locate, Span.length, hstart, hstop]
  intro i j
  unfold RawRun.location RawRun.locate RawRun.locateEnd
  split <;>
    simp_all [single, RawRun.locate, Piece.locateFrom, Piece.locateEndFrom, Piece.locate]

/-- A plain tag has no command in it. -/
theorem not_mem_writtenTag {n : Text} (hn : isTagName n = true) {attrs : List WrittenAttr}
    (hattrs : ∀ a ∈ attrs, a.nameIsPlain = true ∧ a.valueIsPlain = true) :
    '{' ∉ writtenTag n attrs := by
  have hname : '{' ∉ n := by
    intro hmem
    cases n with
    | nil => cases hmem
    | cons c cs =>
      rw [isTagName, Bool.and_eq_true] at hn
      rcases List.mem_cons.mp hmem with rfl | hmem
      · exact absurd hn.1 (by decide)
      · exact absurd (List.all_eq_true.mp hn.2 _ hmem) (by decide)
  have hattr : ∀ a ∈ attrs, '{' ∉ a.text := by
    intro a ha
    obtain ⟨hn, hv⟩ := hattrs a ha
    obtain ⟨n, value⟩ := a
    have hname : '{' ∉ n := by
      intro hmem
      simp only [WrittenAttr.nameIsPlain, Bool.and_eq_true, List.all_eq_true] at hn
      simpa using hn.2 _ hmem
    cases value with
    | none => simp [WrittenAttr.text, WrittenAttr.assignment, hname]
    | some value =>
      obtain ⟨quotes, text⟩ := value
      rw [WrittenAttr.valueIsPlain, Bool.and_eq_true, List.all_eq_true] at hv
      have htext : '{' ∉ text := fun hmem => by simpa using hv.1 _ hmem
      cases quotes <;>
        simp [WrittenAttr.text, WrittenAttr.assignment, hname, htext, Quotes.around, Quotes.char?]
  simp only [writtenTag, List.mem_append, List.mem_cons, List.mem_flatMap, not_or]
  refine ⟨⟨⟨by decide, hname⟩, ?_⟩, by decide⟩
  rintro ⟨a, ha, hmem⟩
  exact hattr a ha hmem

/-- **An illegal attribute is all that is lost with it**: of a tag that is written with plain
attributes, the tag is kept with the attributes that have legal names, in order, and each of the
others is reported once, in order. -/
theorem Template.rewrite_writtenTag {n : Text} (hn : isTagName n = true)
    (hbody : Rcdata.ofName? n = none) {attrs : List WrittenAttr}
    (hattrs : ∀ a ∈ attrs, a.nameIsPlain = true ∧ a.valueIsPlain = true) (ids : IdSource) :
    ∃ t ids', Template.read (writtenTag n attrs) .html ids = .ok (t, ids')
      ∧ ∀ (config : Config) (fresh : IdSource),
        bare (t.rewrite config fresh).result.nodes = [.openTag default default
          (.raw default default n) ((attrs.filter fun a => isAttrName a.name).map WrittenAttr.node)
          false]
        ∧ (t.rewrite config fresh).diagnostics = attrReports (Text.size ('<' :: n)) attrs := by
  have hsource : writtenTag n attrs = '<' :: (n ++ attrs.flatMap WrittenAttr.text ++ ['>']) := rfl
  obtain ⟨t, ids', id, location, hread, hkind, hnodes, hstart, hstop⟩ :=
    Template.read_plain_cons (hsource ▸ not_mem_writtenTag hn hattrs) .html ids
  rw [← hsource] at hread hnodes hstop
  refine ⟨t, ids', hread, fun config fresh => ?_⟩
  have hrun := RawRun.isSource_single hstart hstop
  obtain ⟨b, stop, ⟨hcontext, hclosed, hdiagnostics, hout⟩, hfeed⟩ := Assembly.Reads.feedNodes
    (b := .start (Ledger.start config fresh).countBlock .pcdata false t.location.start)
    (Assembly.reads_writtenTag hrun rfl ⟨rfl, rfl, rfl, rfl⟩ rfl rfl hn hbody hattrs) id
  rw [← hnodes] at hfeed
  replace hclosed : ({ b with offset := stop } : Assembly).Closed := hclosed
  have hend := Assembly.endBlock_of_closed hclosed (by rw [hcontext]; rfl)
    (.inr (by rw [hcontext]; rfl)) .template
  unfold Template.rewrite rewriteBlock
  rw [hkind, rewriteValue]
  dsimp only [Ledger.outcome, Value.nodes, declaredOrHtml, Option.getD, Context.entry?]
  rw [hfeed, hend]
  refine ⟨?_, ?_⟩
  · rw [Assembly.nodes, bare_reverse, hout, List.reverse_singleton]
  · rw [hdiagnostics, List.reverse_reverse, Nat.zero_add]

/-- In `<div a -b='x y' c='d' e:=f g=h/>` the second name shows to be illegal at its first character
and the fourth one behind its last. -/
theorem Template.rewrite_writtenTag_div :
    isTagName "div".toList = true ∧ Rcdata.ofName? "div".toList = none
      ∧ (∀ a ∈ [(⟨"a".toList, none⟩ : WrittenAttr), ⟨"-b".toList, some (.single, "x y".toList)⟩,
          ⟨"c".toList, some (.single, "d".toList)⟩, ⟨"e:".toList, some (.bare, "f".toList)⟩,
          ⟨"g".toList, some (.bare, "h/".toList)⟩],
        a.nameIsPlain = true ∧ a.valueIsPlain = true)
      ∧ ∃ t ids, Template.read "<div a -b='x y' c='d' e:=f g=h/>".toList .html (.startingAt 0)
          = .ok (t, ids)
        ∧ bare (t.rewrite {} ids).result.nodes = [.openTag default default
          (.raw default default "div".toList)
          [.attr default default (.raw default default "a".toList) none,
            .attr default default (.raw default default "c".toList)
              (some (.attrValue default default .single [.raw default default "d".toList])),
            .attr default default (.raw default default "g".toList)
              (some (.attrValue default default .bare [.raw default default "h/".toList]))]
          false]
        ∧ (t.rewrite {} ids).diagnostics
          = [⟨.upTo 7 8, .illegalAttrName⟩, ⟨.upTo 24 25, .illegalAttrName⟩] := by
  have hplain : ∀ a ∈ [(⟨"a".toList, none⟩ : WrittenAttr),
      ⟨"-b".toList, some (.single, "x y".toList)⟩, ⟨"c".toList, some (.single, "d".toList)⟩,
      ⟨"e:".toList, some (.bare, "f".toList)⟩, ⟨"g".toList, some (.bare, "h/".toList)⟩],
      a.nameIsPlain = true ∧ a.valueIsPlain = true := by decide
  obtain ⟨t, ids, hread, h⟩ :=
    Template.rewrite_writtenTag (n := "div".toList) (by decide) (by decide) hplain (.startingAt 0)
  exact ⟨by decide, by decide, hplain, t, ids, hread, h {} ids⟩

end TemplateMarkup
