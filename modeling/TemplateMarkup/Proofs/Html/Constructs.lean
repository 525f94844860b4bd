/-
# Reading tags, attributes and comments

How the spelling of one construct is read, in the order in which it is written: the start of a tag
with its name, the name of an attribute, the start and the end of its value, the end of the tag.
Names end where what follows ends them (`endsAlike_settle`), so their lemmas ask for that.
-/
import TemplateMarkup.Proofs.Html.Laying
import TemplateMarkup.Proofs.Html.ReadOn

namespace TemplateMarkup

/-! ## 1. Marks -/

/-- A name is written out, or it is a print or a call, which is placed as it stands. -/
theorem Node.isNameOf_cases {legal : Text → Bool} {name : Node} (h : name.isNameOf legal = true) :
    (∃ id loc t, name = .raw id loc t ∧ legal t = true)
      ∨ ∃ (n : Node) (hn : n.rawText? = none), n.bare = name.bare ∧ n.isPrinting = true
        ∧ (∀ spaced s, name.spell spaced s = s.after n hn)
        ∧ ∀ b, (feedNode b n).Alike (b.place n) := by
  cases name with
  | raw id loc t => exact .inl ⟨id, loc, t, rfl, h⟩
  | print id loc e =>
    refine .inr ⟨.print default default e, rfl, ?_, rfl, fun _ _ => ?_, fun b => ?_⟩
    · rw [Node.bare, Node.bare]
    · rw [Node.spell]
    · rw [feedNode]
      · exact Assembly.reach_alike _ _
      all_goals simp
  | call id loc callee params =>
    rw [Node.isNameOf, List.isEmpty_iff] at h
    subst h
    refine .inr ⟨.call default default callee [], rfl, ?_, rfl, fun _ _ => ?_, fun b => ?_⟩
    · rw [Node.bare, Node.bare, bareParams]
    · rw [Node.spell, bareParams]
    · rw [feedNode, rewriteParams]
      exact Assembly.reach_alike _ _
  | _ => cases h

/-- Letters that start a tag name begin nothing else. -/
theorem startsTagName_ne {c : Char} (h : startsTagName c = true) :
    c ≠ '!' ∧ c ≠ '?' ∧ c ≠ '/' := by
  refine ⟨?_, ?_, ?_⟩ <;>
  · rintro rfl
    revert h
    decide

theorem inTagName_of_startsTagName {c : Char} (h : startsTagName c = true) :
    inTagName c = true := by
  unfold startsTagName at h
  simp [inTagName, Char.isAlphanum, h]

theorem inAttrName_of_startsAttrName {c : Char} (h : startsAttrName c = true) :
    inAttrName c = true := by
  simp only [startsAttrName, Bool.or_eq_true] at h
  rcases h with (h | h) | h <;> simp [inAttrName, Char.isAlphanum, h]

/-- An open tag begins with its mark. -/
theorem lexeme_openTag {name : Node} (h : name.isNameOf isTagName = true) (s : Spelled) :
    Context.pcdata.lexeme '<' (name.spell false s).text = Lexeme.tagStart false 1 := by
  rcases Node.isNameOf_cases h with ⟨id, loc, t, rfl, ht⟩ | ⟨n, hn, -, -, hspell, -⟩
  · cases t with
    | nil => cases ht
    | cons c cs =>
      rw [isTagName, Bool.and_eq_true] at ht
      obtain ⟨h1, h2, h3⟩ := startsTagName_ne ht.1
      rw [Node.spell, Spelled.lead_text, List.cons_append, Context.lexeme, Lexeme.inPcdata,
        if_pos rfl]
      unfold Lexeme.atAngle
      simp [Text.beginsWith, Text.after?, Ne.symm h1, Ne.symm h2, h3, ht.1]
  · rw [hspell]
    exact (by decide : Context.pcdata.lexeme '<' [] = Lexeme.tagStart false 1)

/-- So does a close tag of ordinary content. -/
theorem lexeme_closeTag {name : Node} (h : name.isNameOf isTagName = true) (s : Spelled) :
    Context.pcdata.lexeme '<' ('/' :: (name.spell false s).text) = Lexeme.tagStart true 2 := by
  rcases Node.isNameOf_cases h with ⟨id, loc, t, rfl, ht⟩ | ⟨n, hn, -, -, hspell, -⟩
  · cases t with
    | nil => cases ht
    | cons c cs =>
      rw [isTagName, Bool.and_eq_true] at ht
      rw [Node.spell, Spelled.lead_text, List.cons_append, Context.lexeme, Lexeme.inPcdata,
        if_pos rfl]
      unfold Lexeme.atAngle
      simp [Text.beginsWith, Text.after?, ht.1]
  · rw [hspell]
    exact (by decide : Context.pcdata.lexeme '<' ['/'] = Lexeme.tagStart true 2)

/-- A tag name that stands for an element is that element's name, letter case aside. -/
theorem Node.sameLetters_of_rcdata? {e : Rcdata} {name : Node} (h : name.rcdata? = some e) :
    ∃ id loc t, name = .raw id loc t ∧ Text.afterAnyCase? e.name.toList t = some [] := by
  cases name with
  | raw id loc t =>
    have ht : Rcdata.ofName? t = some e := h
    have := List.find?_some ht
    exact ⟨id, loc, t, rfl, by simpa [Text.sameLetters] using this⟩
  | _ => cases h

/-- And the close tag of an element whose body is text. -/
theorem lexeme_closeRcdata {e : Rcdata} {name : Node} (h : name.rcdata? = some e) (s : Spelled) :
    (Context.rcdata e).lexeme '<' ('/' :: (name.spell false (s.lead ['>'])).text)
      = Lexeme.tagStart true 2 := by
  obtain ⟨id, loc, t, rfl, ht⟩ := Node.sameLetters_of_rcdata? h
  have hcloses : Lexeme.closesElement e ('<' :: '/' :: (t ++ '>' :: s.text)) = true := by
    unfold Lexeme.closesElement
    simp only [Text.after?, if_true, Option.bind_some, Text.afterAnyCase?_append ht]
    rfl
  rw [Node.spell, Spelled.lead_text, Spelled.lead_text, Context.lexeme, Lexeme.inRcdata,
    List.cons_append, List.nil_append, Text.seek_cons_zero hcloses]
  rfl

/-- A comment begins with its mark. -/
theorem lexeme_comment (t : Text) :
    Context.pcdata.lexeme '<' ("!--".toList ++ t) = Lexeme.marking .commentStart .comment 4 := by
  rw [Context.lexeme, Lexeme.inPcdata, if_pos rfl]
  unfold Lexeme.atAngle
  rw [if_pos (by simp [Text.beginsWith, Text.after?])]

/-- So does the end of a comment. -/
theorem lexeme_commentEnd (t : Text) :
    Context.comment.lexeme '-' ('-' :: '>' :: t) = Lexeme.marking .commentEnd .pcdata 3 := by
  have hstop : Text.beginsWith "-->".toList ('-' :: '-' :: '>' :: t) = true := by
    simp [Text.beginsWith, Text.after?]
  rw [Context.lexeme, Lexeme.inComment, Text.seek_cons_zero hstop]
  rfl

/-! ## 2. Names -/

/-- The characters that end names, and `=`, are in none. -/
theorem atEnd_cases {c : Char} (h : (endsName c || c == '=') = true) :
    inTagName c = false ∧ inAttrName c = false ∧ separatesAttrName c = false := by
  simp only [endsName, isAsciiBlank, Bool.or_eq_true, beq_iff_eq] at h
  rcases h with ((((((rfl | rfl) | rfl) | rfl) | rfl) | rfl) | rfl) | rfl <;> decide

theorem not_atEnd_of_inAttrName {c : Char} (h : inAttrName c = true) :
    (endsName c || c == '=') = false := by
  cases hc : (endsName c || c == '=') with
  | false => rfl
  | true =>
    rw [(atEnd_cases hc).2.1] at h
    cases h

theorem not_atEnd_of_separatesAttrName {c : Char} (h : separatesAttrName c = true) :
    (endsName c || c == '=') = false := by
  cases hc : (endsName c || c == '=') with
  | false => rfl
  | true =>
    rw [(atEnd_cases hc).2.2] at h
    cases h

namespace Assembly

section Names

variable {b : Assembly} {name : Node} {s : Spelled}

/-- **A tag name is read.** -/
theorem readOn_tagName {tag : TagDraft} (hb : b.context = .tagName .empty) (ht : b.tag = some tag)
    (hn : tag.name = none) (htext : tag.nameText = []) (h : name.isNameOf isTagName = true)
    (hs : s.endsName = true) :
    (b.readOn (name.spell false s)).EndsAlike
      (({ b with tag := some { tag with name := some name }, context := .beforeAttrName } :
        Assembly).readOn s) := by
  obtain ⟨l, e, here, i, o, t, a, v, m, f, r, k⟩ := b
  obtain ⟨close, start, nameText, nameLocation, tname, children, element, warned⟩ := tag
  dsimp only at hb ht hn htext
  subst hb ht hn htext
  rcases Node.isNameOf_cases h with ⟨id, loc, t, rfl, ht⟩ | ⟨n, hraw, hbare, hprint, hspell, hfeed⟩
  · cases t with
    | nil => cases ht
    | cons c cs =>
      rw [isTagName, Bool.and_eq_true] at ht
      obtain ⟨hc, hcs⟩ := ht
      have hin := inTagName_of_startsTagName hc
      have hstop : ∀ d ds, s.text = d :: ds → inTagName d = false := by
        intro d ds hd
        unfold Spelled.endsName at hs
        simp only [hd] at hs
        exact (atEnd_cases (by rw [hs, Bool.true_or])).1
      rw [Node.spell]
      refine (Alike.endsAlike (readOn_mark .tagNameChars (.tagName .static)
        ?_)).trans ((endsAlike_settle ?_ hs).trans (Alike.endsAlike (Alike.readOn ?_ s)))
      · rw [Context.lexeme]
        unfold Lexeme.inTagNameAt
        dsimp only
        rw [if_pos hc, Text.run, if_pos hin, Text.run_append hstop hcs]
      · simp [apply, Context.mayEndName]
      · simp [apply, addTagName, settle, finishTagName, enter, Alike, bare, TagDraft.bare,
          Node.bare]
  · rw [hspell]
    refine (Alike.endsAlike (readOn_after hraw)).trans ?_
    refine (Alike.endsAlike ((hfeed _).readOn s)).trans ?_
    refine (endsAlike_settle ?_ hs).trans (Alike.endsAlike (Alike.readOn ?_ s))
    · simp [place, placeTagName, hprint, Context.mayEndName]
    · simp [place, placeTagName, hprint, settle, finishTagName, enter, Alike, bare, TagDraft.bare,
        hbare]

/-- In the name of an attribute that is added to the assembly. -/
def naming (b : Assembly) (part : NamePart) (afterSeparator : Bool) (text : Text)
    (name : Option Node) : Assembly :=
  { b with
    attr := some ⟨0, text, default, name, false⟩
    context := .attrName part afterSeparator false }

theorem readOn_attrNameChars : ∀ {t u : Text} {sep : Bool}, continuesAttrName sep t = true →
    ((b.naming .static sep u none).readOn (s.lead t)).Alike
      ((b.naming .static false (u ++ t) none).readOn s)
  | [], u, sep, h => by
    rw [continuesAttrName, Bool.not_eq_true'] at h
    rw [h, List.append_nil, Spelled.lead_nil]
    exact .refl _
  | c :: cs, u, sep, h => by
    have step {next : Bool} (hnext : continuesAttrName next cs = true)
        (hl : (Context.attrName .static sep false).lexeme c (cs ++ s.text)
          = Lexeme.marking .attrNameChar (.attrName .static next false) 1) :
        ((b.naming .static sep u none).readOn ((s.lead cs).lead [c])).Alike
          ((b.naming .static false (u ++ [c] ++ cs) none).readOn s) := by
      refine (readOn_mark _ _ hl).trans
        (Alike.trans (Alike.readOn ?_ _) (readOn_attrNameChars hnext))
      refine (enter_alike _ _ _).trans ?_
      simp [naming, addAttrName, Alike, bare, AttrDraft.bare]
    rw [Spelled.lead_lead, List.append_assoc] at step
    rw [continuesAttrName] at h
    split at h
    · next hc =>
      refine step h ?_
      rw [Context.lexeme]
      simp [Lexeme.inAttrNameAt, not_atEnd_of_inAttrName hc, hc]
    · next hc =>
      simp only [Bool.and_eq_true, Bool.not_eq_true'] at h
      obtain ⟨⟨hsep, rfl⟩, h⟩ := h
      refine step h ?_
      rw [Context.lexeme]
      simp [Lexeme.inAttrNameAt, not_atEnd_of_separatesAttrName hsep, hc, hsep]

/-- **An attribute name is read**, up to its end. -/
theorem readOn_attrName (hb : b.context = .beforeAttrName) (hf : b.attrFault? = none)
    (h : name.isNameOf isAttrName = true) : ∃ part text named, part ≠ .empty
      ∧ (b.readOn (name.spell false s)).Alike ((b.naming part false text named).readOn s)
      ∧ (b.naming part false text named).finishAttrName.Alike
        (b.naming part false [] (some name)) := by
  rcases Node.isNameOf_cases h with ⟨id, loc, t, rfl, ht⟩ | ⟨n, hraw, hbare, hprint, hspell, hfeed⟩
  · cases t with
    | nil => cases ht
    | cons c cs =>
      rw [isAttrName, Bool.and_eq_true] at ht
      obtain ⟨hc, hcs⟩ := ht
      have hin := inAttrName_of_startsAttrName hc
      have hend := not_atEnd_of_inAttrName hin
      refine ⟨.static, c :: cs, none, by simp, ?_, ?_⟩
      · have hstart : b.context.lexeme c (cs ++ s.text)
            = Lexeme.marking .attrNameStart (.attrName .empty false false) 0 := by
          rw [Bool.or_eq_false_iff, endsName, Bool.or_eq_false_iff, Bool.or_eq_false_iff] at hend
          obtain ⟨⟨⟨hblank, hslash⟩, hangle⟩, -⟩ := hend
          rw [hb, Context.lexeme]
          simp [Lexeme.inTag, hblank, ne_of_beq_false hslash, ne_of_beq_false hangle, hc]
        have hchar : (Context.attrName .empty false false).lexeme c (cs ++ s.text)
            = Lexeme.marking .attrNameChar (.attrName .static false false) 1 := by
          rw [Context.lexeme]
          simp [Lexeme.inAttrNameAt, hend, hc]
        rw [Node.spell]
        refine (readOn_mark_zero _ _ (by exact rfl) hstart).trans ?_
        refine Alike.trans
          (Alike.readOn (show Assembly.Alike _ (b.naming .empty false [] none) from ?_) _) ?_
        · refine (enter_alike _ _ _).trans ?_
          simp [openAttr, reportAttr, hf, naming, Context.discards, Context.refusing, Alike, bare,
            AttrDraft.bare]
        rw [show s.lead (c :: cs) = (s.lead cs).lead [c] from (Spelled.lead_lead [c] cs s).symm]
        refine (readOn_mark _ _ hchar).trans (Alike.trans
          (Alike.readOn (show Assembly.Alike _ (b.naming .static false [c] none) from ?_) _)
          (readOn_attrNameChars hcs))
        refine (enter_alike _ _ _).trans ?_
        simp [naming, addAttrName, Alike, bare, AttrDraft.bare]
      · simp [naming, finishAttrName, Alike, bare, AttrDraft.bare, Node.bare]
  · refine ⟨.dynamic, [], some n, by simp, ?_, ?_⟩
    · rw [hspell]
      refine (readOn_after hraw).trans (((hfeed b).trans ?_).readOn s)
      unfold place placeInTag
      simp only [hb, hprint, if_true]
      refine (enter_alike _ _ _).trans ?_
      simp [openAttr, reportAttr, hf, naming, Alike, bare, AttrDraft.bare]
    · simp [naming, finishAttrName, Alike, bare, AttrDraft.bare, hbare]

/-- A space before an attribute is skipped. -/
theorem readOn_space (hb : b.context = .beforeAttrName) (h : name.isNameOf isAttrName = true) :
    (b.readOn ((name.spell false s).lead [' '])).Alike (b.readOn (name.spell false s)) := by
  have hstop : ∀ c cs, (name.spell false s).text = c :: cs → isAsciiBlank c = false := by
    rcases Node.isNameOf_cases h with ⟨id, loc, t, rfl, ht⟩ | ⟨n, hraw, -, -, hspell, -⟩
    · cases t with
      | nil => cases ht
      | cons c cs =>
        rw [isAttrName, Bool.and_eq_true] at ht
        intro d ds hd
        rw [Node.spell] at hd
        obtain ⟨rfl, -⟩ := List.cons.inj hd
        cases hblank : isAsciiBlank c with
        | false => rfl
        | true =>
          have := not_startsAttrName_of_endsName (c := c) (by simp [endsName, hblank])
          rw [this] at ht
          cases ht.1
    · rw [hspell]
      rintro c cs hc
      cases hc
  refine (readOn_mark .skip .beforeAttrName ?_).trans (Alike.readOn ?_ _)
  · rw [hb, Context.lexeme]
    have hrun := Text.run_append (p := isAsciiBlank) hstop (t := [' ']) (by decide)
    unfold Lexeme.inTag
    rw [if_pos (by decide)]
    exact congrArg _ hrun
  · simp [apply, Context.discards, enter, hb, Alike]

end Names

/-! ## 3. Attributes -/

section Attributes

variable {b : Assembly} {name : Node} {s : Spelled}

theorem finishAttrName_idem (b : Assembly) :
    b.finishAttrName.finishAttrName = b.finishAttrName := by
  obtain ⟨l, e, c, i, o, t, a, v, m, f, r, k⟩ := b
  cases a with
  | none => rfl
  | some a =>
    obtain ⟨start, nameText, nameLocation, name, discard⟩ := a
    cases name with
    | some name => rfl
    | none => cases nameText <;> rfl

/-- **An attribute without a value is read.** -/
theorem readOn_attr (hb : b.context = .beforeAttrName) (hready : b.Ready)
    (h : name.isNameOf isAttrName = true) (hs : s.endsName = true) (id : NodeId) (loc : Span) :
    (b.readOn ((name.spell false s).lead [' '])).EndsAlike
      ((b.lay (.attr id loc name none)).readOn s) := by
  unfold Ready at hready
  rw [hb] at hready
  obtain ⟨hf, ha, -, -⟩ := hready
  obtain ⟨part, text, named, hpart, hread, hfinish⟩ := readOn_attrName (s := s) hb hf h
  refine ((readOn_space hb h).trans hread).endsAlike.trans ?_
  have hmay : (b.naming part false text named).context.mayEndName = true := by
    simp [naming, Context.mayEndName, hpart]
  refine (endsAlike_settle hmay hs).trans (Alike.endsAlike (Alike.readOn ?_ s))
  have hclose : (b.naming part false text named).settle default
      = (b.naming part false text named).finishAttrName.closeAttr (default : Span).start := by
    unfold settle closeAttr endAttr
    rw [finishAttrName_idem]
    rfl
  rw [hclose]
  refine (hfinish.closeAttr _ 0).trans ((enter_alike _ _ _).trans ?_)
  obtain ⟨l, e, here, i, o, t, a, v, m, f, r, k⟩ := b
  dsimp only at hb ha
  subst hb ha
  unfold lay
  rw [contextAfter?_eq_none (by simp) (by simp)]
  cases t <;> simp [naming, endAttr, finishAttrName, addAttr, addAmongAttrs, addOut, Alike, bare,
    Node.bare, TagDraft.bare]

/-- Where the value of an attribute is due that is added to the assembly. -/
def awaiting (b : Assembly) (name : Node) : Assembly :=
  { b with
    attr := some ⟨0, [], default, some name, false⟩
    context := .beforeAttrValue }

/-- In the value of an attribute that is added to the assembly. -/
def valuing (b : Assembly) (name : Node) (quotes : Quotes) (children : List Node) : Assembly :=
  { b with
    attr := some ⟨0, [], default, some name, false⟩
    value := some ⟨quotes, 0, children⟩
    context := .attrValue quotes }

/-- The name and the `=` of an attribute are read. -/
theorem readOn_equals (hb : b.context = .beforeAttrName) (hready : b.Ready)
    (h : name.isNameOf isAttrName = true) :
    (b.readOn ((name.spell false (s.lead ['='])).lead [' '])).Alike
      ((b.awaiting name).readOn s) := by
  unfold Ready at hready
  rw [hb] at hready
  obtain ⟨part, text, named, hpart, hread, hfinish⟩ :=
    readOn_attrName (s := s.lead ['=']) hb hready.1 h
  refine ((readOn_space hb h).trans hread).trans ?_
  refine (readOn_mark .attrEquals .beforeAttrValue ?_).trans (Alike.readOn ?_ s)
  · cases part with
    | empty => exact absurd rfl hpart
    | static | dynamic => exact (by rfl)
  · refine (hfinish.enter _ _ 0).trans ((enter_alike _ _ _).trans ?_)
    simp [naming, awaiting, Alike, bare]

/-- A quoted value begins. -/
theorem readOn_quote {quotes : Quotes} {quote : Char} (hq : quotes.char? = some quote) :
    ((b.awaiting name).readOn (s.lead [quote])).Alike ((b.valuing name quotes []).readOn s) := by
  refine (readOn_mark (.valueStart quotes) (.attrValue quotes) ?_).trans
    (Alike.readOn ?_ s)
  · cases quotes <;> cases hq <;> exact (by rfl)
  · refine (enter_alike _ _ _).trans ?_
    simp [awaiting, valuing, Alike, bare, ValueDraft.bare]

/-- A value without quotes may begin with a print or a call. -/
theorem readOn_printing {n : Node} (h : (n.isNameOf fun _ => false) = true) :
    ((b.awaiting name).readOn (n.spell false s)).Alike
      ((b.valuing name .bare []).readOn (n.spell false s)) := by
  rcases Node.isNameOf_cases h with ⟨id, loc, t, -, ht⟩ | ⟨m, hraw, -, hprint, hspell, hfeed⟩
  · cases ht
  · rw [hspell]
    refine (readOn_after hraw).trans (Alike.trans (Alike.readOn ?_ _) (readOn_after hraw).symm)
    refine (hfeed _).trans (Alike.trans ?_ (hfeed _).symm)
    have hbefore : ((b.awaiting name).placeBeforeValue m).Alike (b.valuing name .bare [m]) := by
      cases m with
      | print id loc e =>
        refine (enter_alike _ _ _).trans ?_
        simp [awaiting, valuing, Alike, bare, ValueDraft.bare]
      | call id loc callee params =>
        refine (enter_alike _ _ _).trans ?_
        simp [awaiting, valuing, Alike, bare, ValueDraft.bare]
      | _ => cases hprint
    have hcontent : (b.valuing name .bare []).placeContent m = b.valuing name .bare [m] := by
      unfold placeContent
      rw [contextAfter?_eq_none (by simp [valuing]) (by simp [valuing])]
      rfl
    unfold place
    simp only [awaiting, valuing] at hbefore hcontent ⊢
    rw [hcontent]
    exact hbefore

/-- A value without quotes begins. -/
theorem readOn_bare {children : List Node} (h : startsBare children = true)
    (hc : canonicalFrom (.attrValue .bare) (.attrValue .bare) children = true) :
    ((b.awaiting name).readOn (spell false children s)).Alike
      ((b.valuing name .bare []).readOn (spell false children s)) := by
  unfold startsBare at h
  split at h
  · next id loc c cs rest =>
    simp only [canonicalFrom, Node.canonicalIn, Context.admits, Quotes.char?, List.all_cons,
      Bool.and_eq_true] at hc
    have hin : Lexeme.inBareValue c = true := hc.1.1.2.1
    simp only [Bool.and_eq_true, bne_iff_ne, ne_eq] at h
    rw [spell, Node.spell]
    refine (readOn_mark_zero (.valueStart .bare) (.attrValue .bare)
      (by exact rfl) ?_).trans (Alike.readOn ?_ _)
    · have hblank : isAsciiBlank c = false := by
        unfold Lexeme.inBareValue at hin
        simp only [Bool.and_eq_true, Bool.not_eq_true'] at hin
        exact hin.1
      simp [awaiting, Context.lexeme, Lexeme.beforeValue, hblank, h.1, h.2]
    · refine (enter_alike _ _ _).trans ?_
      simp [awaiting, valuing, Alike, bare, ValueDraft.bare]
  · rw [spell]
    exact readOn_printing rfl
  · next id loc callee params rest =>
    simp only [canonicalFrom, Node.canonicalIn, Bool.and_eq_true] at hc
    rw [spell]
    exact readOn_printing hc.1.1.2
  · cases h

/-- The end of a value adds its attribute. -/
theorem closeValue_valuing (hb : b.context = .beforeAttrName) (hready : b.Ready) (quotes : Quotes)
    (children : List Node) (stop : Nat) (id id' : NodeId) (loc loc' : Span) :
    ((b.valuing name quotes children.reverse).closeValue stop).Alike
      (b.lay (.attr id loc name (some (.attrValue id' loc' quotes children)))) := by
  unfold Ready at hready
  rw [hb] at hready
  obtain ⟨-, ha, hv, -⟩ := hready
  refine (enter_alike _ _ _).trans ?_
  obtain ⟨l, e, here, i, o, t, a, v, m, f, r, k⟩ := b
  dsimp only at hb ha hv
  subst hb ha hv
  unfold lay
  rw [contextAfter?_eq_none (by simp) (by simp)]
  cases t <;> simp [valuing, endValue, giveValue, addAttr, addAmongAttrs, addOut, Alike, bare,
    Node.bare, TagDraft.bare]

/-- A quoted value ends. -/
theorem readOn_unquote {quotes : Quotes} {quote : Char} (hq : quotes.char? = some quote)
    {children : List Node} (hb : b.context = .beforeAttrName) (hready : b.Ready)
    (id id' : NodeId) (loc loc' : Span) :
    ((b.valuing name quotes children.reverse).readOn (s.lead [quote])).Alike
      ((b.lay (.attr id loc name (some (.attrValue id' loc' quotes children)))).readOn s) := by
  refine (readOn_mark .valueEnd .beforeAttrName ?_).trans (Alike.readOn ?_ s)
  · cases quotes <;> cases hq <;> exact (by rfl)
  · exact closeValue_valuing hb hready quotes children _ id id' loc loc'

end Attributes

/-! ## 4. Tags and comments -/

section Tags

variable {b : Assembly} {name : Node} {s : Spelled}

/-- In a tag that is added to the assembly; the children have the latest first. -/
def inTag (b : Assembly) (close : Bool) (name : Node) (children : List Node) : Assembly :=
  { b with
    tag := some {
      close := close
      start := 0
      nameText := []
      nameLocation := default
      name := some name
      children := children
      element := match b.context with
        | .rcdata element => some element
        | _ => none
      warned := false }
    context := .beforeAttrName }

/-- In a comment that is added to the assembly; the children have the latest first. -/
def inComment (b : Assembly) (children : List Node) : Assembly :=
  { b with comment := some ⟨0, children⟩, context := .comment }

/-- **The start of a tag is read**, with its name. -/
theorem readOn_tagStart (close : Bool) (cs : Text) (h : name.isNameOf isTagName = true)
    (hl : b.context.lexeme '<' (cs ++ (name.spell false s).text)
      = Lexeme.tagStart close (cs.length + 1)) (hs : s.endsName = true) :
    (b.readOn ((name.spell false s).lead ('<' :: cs))).EndsAlike
      ((b.inTag close name []).readOn s) := by
  refine (readOn_mark (.tagStart close) (.tagName .empty) hl).endsAlike.trans ?_
  have hstart : (b.apply (.tagStart close) (.tagName .empty) ('<' :: cs) default).Alike
      { b with
        tag := some {
          close := close
          start := 0
          nameText := []
          nameLocation := default
          name := none
          children := []
          element := match b.context with
            | .rcdata element => some element
            | _ => none
          warned := false }
        context := .tagName .empty } := by
    refine (enter_alike _ _ _).trans ?_
    unfold openTag Alike bare
    cases b.context <;> rfl
  refine ((hstart.readOn _).endsAlike.trans (readOn_tagName rfl rfl rfl rfl h hs)).trans ?_
  exact (Alike.refl _).endsAlike

/-- The end of an open tag is read. -/
theorem readOn_openTagEnd (hb : b.context = .pcdata) (hclosed : b.Closed) (children : List Node)
    (selfClosing : Bool) (id : NodeId) (loc : Span) :
    ((b.inTag false name children.reverse).readOn
        (s.lead (if selfClosing then "/>" else ">").toList)).Alike
      ((b.lay (.openTag id loc name children selfClosing)).readOn s) := by
  have hend : ((b.inTag false name children.reverse).closeTag selfClosing 0 true).Alike
      (b.lay (.openTag id loc name children selfClosing)) := by
    refine (enter_alike _ _ _).trans ?_
    rw [lay_of_closed hclosed]
    obtain ⟨l, e, here, i, o, t, a, v, m, f, r, k⟩ := b
    dsimp only at hb
    subst hb
    obtain ⟨rfl, rfl, rfl, rfl⟩ := hclosed
    cases selfClosing <;> cases hname : name.rcdata? <;>
      simp [inTag, contextAfter?, hname, Alike, bare, Node.bare]
  cases selfClosing with
  | false =>
    refine (readOn_mark (.tagEnd false) .pcdata ?_).trans
      (Alike.readOn (((Alike.refl _).closeTag _ _ 0 _).trans hend) s)
    exact (by rfl)
  | true =>
    refine (readOn_mark (.tagEnd true) .pcdata ?_).trans
      (Alike.readOn (((Alike.refl _).closeTag _ _ 0 _).trans hend) s)
    exact (by rfl)

/-- The end of a close tag is read. -/
theorem readOn_closeTagEnd (hb : name.rcdata? = match b.context with
      | .rcdata element => some element
      | _ => none)
    (hcontext : b.context = .pcdata ∨ ∃ e, b.context = .rcdata e) (hclosed : b.Closed)
    (id : NodeId) (loc : Span) : ((b.inTag true name []).readOn (s.lead ['>'])).Alike
      ((b.lay (.closeTag id loc name)).readOn s) := by
  refine (readOn_mark (.tagEnd false) .pcdata (by exact (by rfl))).trans
    (Alike.readOn ?_ s)
  refine (enter_alike _ _ _).trans ?_
  rw [lay_of_closed hclosed]
  obtain ⟨l, e, here, i, o, t, a, v, m, f, r, k⟩ := b
  dsimp only at hb hcontext
  obtain ⟨rfl, rfl, rfl, rfl⟩ := hclosed
  rcases hcontext with rfl | ⟨e, rfl⟩ <;>
    simp [inTag, contextAfter?, hb, Alike, bare, Node.bare]

/-- The start of a comment is read. -/
theorem readOn_commentStart (hb : b.context = .pcdata) :
    (b.readOn (s.lead "<!--".toList)).Alike ((b.inComment []).readOn s) := by
  refine (readOn_mark .commentStart .comment ?_).trans (Alike.readOn ?_ s)
  · rw [hb]
    exact lexeme_comment s.text
  · refine (enter_alike _ _ _).trans ?_
    simp [inComment, Alike, bare, CommentDraft.bare]

/-- The end of a comment is read. -/
theorem readOn_commentEnd (hb : b.context = .pcdata) (hclosed : b.Closed) (children : List Node)
    (id : NodeId) (loc : Span) :
    ((b.inComment children.reverse).readOn (s.lead "-->".toList)).Alike
      ((b.lay (.comment id loc children)).readOn s) := by
  refine (readOn_mark .commentEnd .pcdata ?_).trans (Alike.readOn ?_ s)
  · exact lexeme_commentEnd s.text
  · refine (enter_alike _ _ _).trans ?_
    rw [lay_of_closed hclosed]
    obtain ⟨l, e, here, i, o, t, a, v, m, f, r, k⟩ := b
    dsimp only at hb
    subst hb
    obtain ⟨rfl, rfl, rfl, rfl⟩ := hclosed
    simp [inComment, endComment, addOut, contextAfter?, Alike, bare, Node.bare]

end Tags

end Assembly

end TemplateMarkup
