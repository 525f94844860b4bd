/-
# The source of html without commands

The source text of html without commands is that html with its tags trimmed (`trimTags`), if nothing
is reported and it does not break off in a tag (`Template.source_of_plain`).

At every moment of a run what has been put together can be printed, drafts included
(`Assembly.printed`).  What is printed, what is held back, and what the scan writes for the text that
is left make up the trimmed html: content moves from the third to the second and from there to the
first, and a mark writes what the scan writes for it (`printed_apply`).
-/
import Mathlib.Data.List.TakeWhile
import TemplateMarkup.Proofs.Html.Coherence
import TemplateMarkup.Proofs.Html.Laying
import TemplateMarkup.Proofs.Html.Plain
import TemplateMarkup.Template.Read
import TemplateMarkup.Tree.Source

namespace TemplateMarkup

/-! ## 1. The source of lists -/

theorem sourceAfter_append : ∀ (nodes later : List Node) (spaced : Bool),
    sourceAfter spaced (nodes ++ later)
      = sourceAfter spaced nodes ++ sourceAfter (spaced || someGivesAttribute nodes) later
  | [], later, spaced => by simp [sourceAfter, someGivesAttribute]
  | n :: nodes, later, spaced => by
    rw [List.cons_append, sourceAfter, sourceAfter, sourceAfter_append nodes, someGivesAttribute,
      List.append_assoc, Bool.or_assoc]

/-- In a tag every attribute has its space. -/
theorem sourceAfter_true_concat (nodes : List Node) (n : Node) :
    sourceAfter true (nodes ++ [n]) = sourceAfter true nodes ++ n.source true := by
  simp [sourceAfter_append, sourceAfter]

/-- One more node that is not spaced. -/
theorem sourceAfter_concat {n : Node} {t : Text} (h : ∀ spaced, n.source spaced = t)
    (nodes : List Node) (spaced : Bool) :
    sourceAfter spaced (nodes ++ [n]) = sourceAfter spaced nodes ++ t := by
  simp [sourceAfter_append, sourceAfter, h]

/-! ## 2. What is put together so far -/

/-- A name of which `text` has been read, or that is finished. -/
def nameSource (text : Text) (name : Option Node) : Text := text ++ name.elim [] (Node.source false)

def TagDraft.head (tag : TagDraft) : TagHead := ⟨tag.close, nameSource tag.nameText tag.name⟩

def TagDraft.printed (tag : TagDraft) : Text :=
  (if tag.close then "</" else "<").toList ++ tag.head.name ++ sourceAfter true tag.children.reverse

def AttrDraft.printed (attr : AttrDraft) : Text := ' ' :: nameSource attr.nameText attr.name

def ValueDraft.printed (value : ValueDraft) : Text :=
  value.quotes.char?.toList ++ source value.children.reverse

def CommentDraft.printed (comment : CommentDraft) : Text :=
  "<!--".toList ++ source comment.children.reverse

/-- After the `=` of an attribute. -/
def Context.isPastEquals : Context → Bool
  | beforeAttrValue | attrValue _ => true
  | _ => false

namespace Assembly

/-- The source of what has been put together, drafts included. -/
def printed (b : Assembly) : Text :=
  source b.out.reverse ++ (b.tag.elim [] TagDraft.printed ++ (b.attr.elim [] AttrDraft.printed
    ++ ((if b.context.isPastEquals then ['='] else []) ++ (b.value.elim [] ValueDraft.printed
      ++ b.comment.elim [] CommentDraft.printed))))

/-- The tag that is open. -/
def head (b : Assembly) : TagHead := b.tag.elim ⟨false, []⟩ TagDraft.head

/-- Where the next character stands. -/
def nextPlace (b : Assembly) : Place := b.context.place b.head

/-- Names are written out, and of a finished one nothing is left. -/
structure NamesWritten (b : Assembly) : Prop where
  tag : ∀ tag, b.tag = some tag → ∀ n, tag.name = some n →
    tag.nameText = [] ∧ ∃ id loc t, n = .raw id loc t ∧ t ≠ []
  attr : ∀ attr, b.attr = some attr → attr.name.isSome = true → attr.nameText = []

/-- Nothing about names changes. -/
theorem NamesWritten.congr {b b' : Assembly} (h : b.NamesWritten) (ht : b'.tag = b.tag)
    (ha : b'.attr = b.attr) : b'.NamesWritten := ⟨ht ▸ h.tag, ha ▸ h.attr⟩

/-- No attribute is open. -/
theorem namesWritten_of_attr_eq_none {b : Assembly} (h : b.attr = none)
    (ht : ∀ tag, b.tag = some tag → ∀ n, tag.name = some n →
      tag.nameText = [] ∧ ∃ id loc t, n = .raw id loc t ∧ t ≠ []) : b.NamesWritten :=
  ⟨ht, fun attr ha => by rw [h] at ha; cases ha⟩

theorem namesWritten_start (l : Ledger) (entry : Context) (inBranch : Bool) (offset : Nat) :
    (start l entry inBranch offset).NamesWritten := ⟨nofun, nofun⟩

/-! ## 3. Content -/

/-- Text is added to the source of the content. -/
theorem addText_source (b : Assembly) (text : Text) (location : Span) :
    ∃ l nodes, b.addText text location = { b with ledger := l }.setContent nodes
      ∧ source nodes.reverse = source b.content.reverse ++ text := by
  unfold addText source
  split
  · next id before t nodes hb =>
    refine ⟨b.ledger, _, rfl, ?_⟩
    rw [hb, List.reverse_cons, List.reverse_cons,
      sourceAfter_concat (fun spaced => by rw [Node.source]),
      sourceAfter_concat (fun spaced => by rw [Node.source]), List.append_assoc]
  · next nodes _ =>
    refine ⟨_, _, rfl, ?_⟩
    rw [List.reverse_cons, sourceAfter_concat (fun spaced => by rw [Node.source])]

section Content

variable {b : Assembly} {t : Text}

/-- **Content that is added is printed.** -/
theorem printed_addText (he : b.entry = .pcdata) (h : b.Coherent t)
    (hh : b.context.holdsText = true) (text : Text) (location : Span) :
    (b.addText text location).printed = b.printed ++ text
      ∧ (b.addText text location).head = b.head
      ∧ (b.NamesWritten → (b.addText text location).NamesWritten) := by
  obtain ⟨l, nodes, hadd, hsource⟩ := b.addText_source text location
  rw [hadd]
  obtain ⟨ledger, entry, here, inBranch, out, tag, attr, value, comment, filled, raw, off⟩ := b
  dsimp only at he hh
  subst he
  dsimp only [Coherent] at h
  cases h with
  | content _ hhere =>
    have hcontent := setContent_of_isContent
      (b := ⟨l, .pcdata, here, inBranch, out, none, none, none, none, filled, raw, off⟩) hhere nodes
    refine ⟨?_, ?_, fun hn => ?_⟩
    · dsimp only
      rw [hcontent]
      rw [content_of_isContent hhere] at hsource
      have hpast : here.isPastEquals = false := by cases here <;> first | rfl | cases hhere
      simp [printed, hsource, hpast]
    · dsimp only
      rw [hcontent]
      rfl
    · dsimp only
      rw [hcontent]
      exact ⟨nofun, nofun⟩
  | comment =>
    refine ⟨?_, rfl, fun hn => ⟨hn.tag, hn.attr⟩⟩
    simp only [content] at hsource
    simp [printed, setContent, CommentDraft.printed, hsource, Context.isPastEquals]
  | value draft ht ha =>
    refine ⟨?_, rfl, fun hn => ⟨hn.tag, hn.attr⟩⟩
    simp only [content] at hsource
    simp [printed, setContent, ValueDraft.printed, hsource, Context.isPastEquals]
  | inComment he | inValue he => cases he
  | tagName | inTag | attrName | beforeValue => cases hh

/-- Reading content on prints nothing. -/
theorem printed_enter_content {c : Char} {l : Lexeme} (hl : Context.Move b.context c l)
    (hm : l.mark = none) (offset : Nat) : (b.enter l.next offset).printed = b.printed := by
  have hpast : l.next.isPastEquals = b.context.isPastEquals := by
    generalize b.context = here at hl
    cases hl <;> first | rfl | cases hm
  unfold printed
  rw [enter_out, enter_tag, enter_attr, enter_context, enter_value, enter_comment, hpast]

end Content

end Assembly

/-! ## 4. Marks -/

/-- The characters of a mark in context `here`, where it has but one spelling. -/
def Mark.spelling? (here : Context) : Mark → Option Text
  | .tagStart close => some (if close then "</" else "<").toList
  | .tagEnd selfClosing => some (if selfClosing then "/>" else ">").toList
  | .attrEquals => some ['=']
  | .valueStart quotes => some quotes.char?.toList
  | .valueEnd =>
    match here with
    | .attrValue quotes => some quotes.char?.toList
    | _ => none
  | .commentStart => some "<!--".toList
  | .commentEnd => some "-->".toList
  | _ => none

theorem Lexeme.take_atAngle {cs u : Text} {m : Mark} (hm : (atAngle cs).mark = some m)
    (hu : m.spelling? .pcdata = some u) : ('<' :: cs).take (atAngle cs).width = u := by
  revert hm
  unfold atAngle
  split
  · next h =>
    intro hm
    cases hm
    cases hu
    obtain ⟨rest, rfl⟩ := Text.exists_of_beginsWith h
    rfl
  · split
    · exact nofun
    · split
      · exact nofun
      · split
        · intro hm
          cases hm
          cases hu
          rfl
        · intro hm
          cases hm
          cases hu
          rfl
        · split
          · intro hm
            cases hm
            cases hu
            rfl
          · exact nofun
        · split
          · intro hm
            cases hm
            cases hu
            rfl
          · exact nofun

theorem Lexeme.take_inRcdata {e : Rcdata} {c : Char} {cs u : Text} {m : Mark}
    (hm : (inRcdata e (c :: cs)).mark = some m) (hu : m.spelling? (.rcdata e) = some u) :
    (c :: cs).take (inRcdata e (c :: cs)).width = u := by
  revert hm
  simp only [inRcdata]
  split
  · rintro ⟨⟩
  · next h =>
    intro hm
    cases hm
    cases hu
    have hc : closesElement e (c :: cs) = true := (Text.of_seek_eq_some h).1
    unfold closesElement at hc
    cases ha : Text.after? ['<', '/'] (c :: cs) with
    | none => rw [ha] at hc; cases hc
    | some rest => rw [Text.eq_append_of_after? ha]; rfl
  · rintro ⟨⟩

theorem Lexeme.take_inComment {c : Char} {cs u : Text} {m : Mark}
    (hm : (inComment (c :: cs)).mark = some m) (hu : m.spelling? .comment = some u) :
    (c :: cs).take (inComment (c :: cs)).width = u := by
  revert hm
  simp only [inComment]
  split
  · rintro ⟨⟩
  · next h =>
    intro hm
    cases hm
    cases hu
    obtain ⟨rest, hrest⟩ := Text.exists_of_beginsWith (Text.of_seek_eq_some h).1
    rw [List.drop_zero] at hrest
    rw [hrest]
    rfl
  · rintro ⟨⟩

theorem Lexeme.take_inTag {c : Char} {cs u : Text} {m : Mark} (hm : (inTag c cs).mark = some m)
    (hu : m.spelling? .beforeAttrName = some u) : (c :: cs).take (inTag c cs).width = u := by
  revert hm
  simp only [inTag]
  split
  · intro hm
    cases hm
    cases hu
  · split
    · next hc =>
      intro hm
      cases hm
      cases hu
      rw [hc]
      rfl
    · split
      · next hc =>
        subst hc
        split
        · next hs =>
          intro hm
          cases hm
          cases hu
          obtain ⟨rest, rfl⟩ := Text.exists_of_beginsWith hs
          rfl
        · intro hm
          cases hm
          cases hu
      · split <;>
        · intro hm
          cases hm
          cases hu

theorem Lexeme.take_atAttrNameEnd {here : Context} {c : Char} {cs u : Text} {m : Mark}
    (hm : (atAttrNameEnd c).mark = some m) (hu : m.spelling? here = some u) :
    (c :: cs).take (atAttrNameEnd c).width = u := by
  unfold atAttrNameEnd at hm ⊢
  split at hm
  · next hc =>
    cases hm
    cases hu
    rw [if_pos hc, hc]
    rfl
  · cases hm
    cases hu

theorem Lexeme.take_inAttrName {part : NamePart} {sep drop : Bool} {c : Char} {cs u : Text}
    {m : Mark} (hm : (inAttrNameAt part sep drop c).mark = some m)
    (hu : m.spelling? (.attrName part sep drop) = some u) :
    (c :: cs).take (inAttrNameAt part sep drop c).width = u := by
  revert hm
  simp only [inAttrNameAt]
  cases part <;> repeat' split
  all_goals
    intro hm
    first
    | exact take_atAttrNameEnd hm hu
    | (cases hm; cases hu)

theorem Lexeme.take_beforeValue {c : Char} {cs u : Text} {m : Mark}
    (hm : (beforeValue c cs).mark = some m) (hu : m.spelling? .beforeAttrValue = some u) :
    (c :: cs).take (beforeValue c cs).width = u := by
  revert hm
  simp only [beforeValue]
  split
  · intro hm
    cases hm
    cases hu
  · split
    · next hc =>
      intro hm
      cases hm
      cases hu
      rw [hc]
      rfl
    · split
      · next hc =>
        intro hm
        cases hm
        cases hu
        rw [hc]
        rfl
      · intro hm
        cases hm
        cases hu
        rfl

theorem Lexeme.take_inValue {quotes : Quotes} {c : Char} {cs u : Text} {m : Mark}
    (hm : (inValue quotes c cs).mark = some m) (hu : m.spelling? (.attrValue quotes) = some u) :
    (c :: cs).take (inValue quotes c cs).width = u := by
  revert hm
  simp only [inValue]
  split
  · next hq =>
    split
    · rintro ⟨⟩
    · intro hm
      cases hm
      simp only [Mark.spelling?, hq, Option.some.injEq] at hu
      rw [← hu]
      rfl
  · next quote hq =>
    split
    · next hc =>
      intro hm
      cases hm
      simp only [Mark.spelling?, hq, Option.some.injEq] at hu
      rw [← hu, hc]
      rfl
    · rintro ⟨⟩

/-- **A mark takes the characters that spell it.** -/
theorem Context.take_lexeme {here : Context} {c : Char} {cs u : Text} {m : Mark}
    (hm : (here.lexeme c cs).mark = some m) (hu : m.spelling? here = some u) :
    (c :: cs).take (here.lexeme c cs).width = u := by
  cases here with
  | pcdata =>
    revert hm
    simp only [lexeme, Lexeme.inPcdata]
    split
    · next hc =>
      subst hc
      exact fun hm => Lexeme.take_atAngle hm hu
    · rintro ⟨⟩
  | rcdata e => exact Lexeme.take_inRcdata hm hu
  | comment => exact Lexeme.take_inComment hm hu
  | declaration | cdata =>
    revert hm
    simp only [lexeme, Lexeme.inDelimited]
    split <;> rintro ⟨⟩
  | tagName part =>
    revert hm
    simp only [lexeme, Lexeme.inTagNameAt]
    cases part <;> repeat' split
    all_goals
      intro hm
      cases hm
      cases hu
  | beforeAttrName => exact Lexeme.take_inTag hm hu
  | attrName part sep drop => exact Lexeme.take_inAttrName hm hu
  | beforeAttrValue => exact Lexeme.take_beforeValue hm hu
  | attrValue quotes => exact Lexeme.take_inValue hm hu

namespace Assembly

/-- The name of a tag that is finished is written as before. -/
theorem finishTagName_head {tag : TagDraft} {b : Assembly} (ht : b.tag = some tag) :
    ∃ tag', b.finishTagName.tag = some tag' ∧ tag'.head = tag.head ∧ tag'.children = tag.children
      ∧ (b.NamesWritten → b.finishTagName.NamesWritten) := by
  unfold finishTagName
  rw [ht]
  dsimp only
  split
  · next hc =>
    simp only [Bool.and_eq_true, Option.isNone_iff_eq_none, Bool.not_eq_true',
      List.isEmpty_eq_false_iff] at hc
    refine ⟨_, rfl, ?_, rfl, fun hn => ⟨?_, hn.attr⟩⟩
    · simp [TagDraft.head, nameSource, hc.1, Node.source]
    · intro tag' ht' n hname
      cases ht'
      cases hname
      exact ⟨rfl, _, _, _, rfl, hc.2⟩
  · exact ⟨tag, ht, rfl, rfl, id⟩

/-- The name of an attribute that is finished is written as before. -/
theorem finishAttrName_printed {attr : AttrDraft} {part : NamePart} {b : Assembly}
    (ha : b.attr = some attr) (hs : attr.Spells part) (hp : part ≠ .empty) (hn : b.NamesWritten) :
    ∃ l attr' name, b.finishAttrName = { b with ledger := l, attr := some attr' }
      ∧ attr'.discard = attr.discard ∧ attr'.name = some name ∧ attr'.nameText = []
      ∧ attr'.printed = attr.printed := by
  unfold finishAttrName
  rw [ha]
  dsimp only
  split
  · next hc =>
    simp only [Bool.and_eq_true, Option.isNone_iff_eq_none] at hc
    refine ⟨_, _, _, rfl, rfl, rfl, rfl, ?_⟩
    simp [AttrDraft.printed, nameSource, hc.1, Node.source]
  · next hc =>
    cases part with
    | empty => exact absurd rfl hp
    | static =>
      obtain ⟨h1, h2⟩ := hs
      exact absurd (by simp [h1, h2]) hc
    | dynamic =>
      obtain ⟨name, hname⟩ := Option.isSome_iff_exists.mp hs
      refine ⟨b.ledger, attr, name, by rw [← ha], rfl, hname, hn.attr attr ha hs, rfl⟩

/-- A finished attribute is written among the children of its tag. -/
theorem addAttr_eq {attr : AttrDraft} {name : Node} {tag : TagDraft} {b : Assembly}
    (hd : attr.discard = false) (hname : attr.name = some name) (ht : b.tag = some tag)
    (value : Option Node) (stop : Nat) :
    ∃ l id loc, b.addAttr attr value stop = { b with
      ledger := l
      tag := some { tag with children := .attr id loc name value :: tag.children } } := by
  unfold addAttr addAmongAttrs
  rw [if_neg (by simp [hd]), hname]
  dsimp only
  rw [ht]
  exact ⟨_, _, _, rfl⟩

/-- What a mark does to what is printed. -/
structure Prints (b : Assembly) (m : Mark) (next : Context) (text : Text) (b' : Assembly) :
    Prop where
  printed : b'.printed = b.printed ++ m.written b.head text
  place : b'.nextPlace = m.place b.head text next
  names : b'.NamesWritten

/-- **A tag ends.** -/
theorem prints_tagEnd {b : Assembly} {tag : TagDraft} {selfClosing : Bool} {stop : Nat}
    {text : Text} (htext : text = (if selfClosing then "/>" else ">").toList)
    (hc : b.context = .beforeAttrName) (ht : b.tag = some tag) (ha : b.attr = none)
    (hv : b.value = none) (hm : b.comment = none) (hname : tag.name.isSome = true)
    (hw : tag.warned = false) (hn : b.NamesWritten)
    (hclean : (b.closeTag selfClosing stop true).Clean) :
    b.Prints (.tagEnd selfClosing) .pcdata text (b.closeTag selfClosing stop true) := by
  obtain ⟨name, hname⟩ := Option.isSome_iff_exists.mp hname
  obtain ⟨hempty, id, loc, t, rfl, ht'⟩ := hn.tag tag ht name hname
  have hhead' : tag.head = ⟨tag.close, t⟩ := by
    simp [TagDraft.head, nameSource, hempty, hname, Node.source]
  have hhead : b.head = ⟨tag.close, t⟩ := by
    rw [head, ht]
    exact hhead'
  have hprinted : b.printed = source b.out.reverse ++ ((if tag.close then "</" else "<").toList ++ t
      ++ sourceAfter true tag.children.reverse) := by
    simp [Assembly.printed, ht, ha, hv, hm, hc, Context.isPastEquals, TagDraft.printed, hhead']
  have ends {b' : Assembly}
      (hout : source b'.out.reverse = b.printed ++ (Mark.tagEnd selfClosing).written b.head text)
      (hplace : b'.context.place ⟨false, []⟩ = (Mark.tagEnd selfClosing).place b.head text .pcdata)
      (hpast : b'.context.isPastEquals = false) (ht : b'.tag = none) (ha : b'.attr = none)
      (hv : b'.value = none) (hm : b'.comment = none) :
      b.Prints (.tagEnd selfClosing) .pcdata text b' := by
    refine ⟨?_, ?_, ⟨by simp [ht], by simp [ha]⟩⟩
    · rw [← hout]
      simp [Assembly.printed, ht, ha, hv, hm, hpast]
    · rw [nextPlace, head, ht]
      exact hplace
  unfold closeTag at hclean ⊢
  rw [ht] at hclean ⊢
  dsimp only at hclean ⊢
  rw [hname] at hclean ⊢
  dsimp only at hclean ⊢
  cases hclose : tag.close with
  | true =>
    rw [if_pos hclose] at hclean
    rw [if_pos rfl]
    have hchildren : tag.children = [] := by
      cases hch : tag.children with
      | nil => rfl
      | cons n nodes =>
        unfold addCloseTag at hclean
        dsimp only at hclean
        rw [if_pos (c := (!tag.children.isEmpty && !tag.warned) = true) (by simp [hw, hch])]
          at hclean
        exact absurd ((extends_enter ..).clean hclean) (not_clean_report _ _ _)
    obtain ⟨-, hcontext, h3, h4, h5, h6⟩ := addCloseTag_drafts { b with tag := none } tag
      (.raw id loc t) (.upTo tag.start stop)
    refine ends ?_ ?_ ?_ h3 (h4.trans ha) (h5.trans hv) (h6.trans hm)
    · rw [hprinted, Mark.written, hhead, hclose]
      unfold addCloseTag
      dsimp only
      rw [enter_out, hchildren]
      dsimp only [List.nil_append]
      rw [List.reverse_cons, source, sourceAfter_concat (fun spaced => by rw [Node.source]),
        Node.source]
      split <;> split <;> simp [source, sourceAfter, report]
    · rw [hcontext]
      cases selfClosing with
      | true => rfl
      | false =>
        show _ = TagHead.inside _
        rw [hhead, TagHead.inside, hclose]
        rfl
    · rw [hcontext]
      rfl
  | false =>
    rw [if_neg (by simp)]
    obtain ⟨-, -, h3, h4, h5, h6⟩ := addOpenTag_drafts { b with tag := none } tag
      (.raw id loc t) (.upTo tag.start stop) selfClosing true
    have hnext : (addOpenTag { b with tag := none } tag (.raw id loc t) (.upTo tag.start stop)
        selfClosing true).context = (Rcdata.ofName? t).elim .pcdata fun element =>
          if true && !selfClosing then .rcdata element else .pcdata := by
      unfold addOpenTag
      rw [enter_context, show (Node.raw id loc t).rcdata? = Rcdata.ofName? t from rfl]
      cases Rcdata.ofName? t <;> rfl
    refine ends ?_ ?_ ?_ h3 (h4.trans ha) (h5.trans hv) (h6.trans hm)
    · rw [hprinted, Mark.written, hhead, hclose, htext]
      unfold addOpenTag
      rw [enter_out]
      dsimp only
      rw [List.reverse_cons, source, sourceAfter_concat (fun spaced => by rw [Node.source]),
        Node.source]
      cases selfClosing <;> simp [source]
    · rw [hnext]
      cases selfClosing with
      | true => cases Rcdata.ofName? t <;> rfl
      | false =>
        show _ = TagHead.inside _
        rw [hhead, TagHead.inside, hclose]
        dsimp only
        cases Rcdata.ofName? t <;> rfl
    · rw [hnext]
      cases Rcdata.ofName? t <;> cases selfClosing <;> rfl

/-- **An attribute ends**, with its value or without. -/
theorem prints_addAttr {b : Assembly} {attr : AttrDraft} {name : Node} {tag : TagDraft}
    (hd : attr.discard = false) (hname : attr.name = some name) (ht : b.tag = some tag)
    (ha : b.attr = none) (hv : b.value = none) (hm : b.comment = none) (hn : b.NamesWritten)
    (value : Option Node) (stop offset : Nat) :
    ((b.addAttr attr value stop).enter .beforeAttrName offset).printed
        = source b.out.reverse ++ (tag.printed ++ (' ' :: name.source false
          ++ value.elim [] fun v => '=' :: v.source false))
      ∧ ((b.addAttr attr value stop).enter .beforeAttrName offset).nextPlace = .inTag tag.head
      ∧ ((b.addAttr attr value stop).enter .beforeAttrName offset).NamesWritten := by
  obtain ⟨l, id, loc, hadd⟩ := addAttr_eq hd hname ht value stop
  rw [hadd]
  refine ⟨?_, ?_, ⟨?_, ?_⟩⟩
  · unfold printed
    rw [enter_out, enter_tag, enter_attr, enter_context, enter_value, enter_comment]
    dsimp only
    rw [ha, hv, hm]
    have : (TagDraft.printed { tag with children := .attr id loc name value :: tag.children })
        = tag.printed
          ++ (' ' :: name.source false ++ value.elim [] fun v => '=' :: v.source false) := by
      unfold TagDraft.printed
      dsimp only
      rw [List.reverse_cons, sourceAfter_true_concat]
      cases value <;> simp [Node.source, TagDraft.head]
    simp [this, Context.isPastEquals]
  · unfold nextPlace head
    rw [enter_context, enter_tag]
    rfl
  · rw [enter_tag]
    intro tag' ht'
    cases ht'
    exact hn.tag tag ht
  · rw [enter_attr]
    dsimp only
    rw [ha]
    exact nofun

/-- The end of a value is printed. -/
theorem prints_valueEnd {b : Assembly} {quotes : Quotes} {t text : Text} {location : Span}
    (he : b.entry = .pcdata) (h : b.Coherent t) (hc : b.context = .attrValue quotes)
    (hn : b.NamesWritten) (htext : text = quotes.char?.toList) :
    b.Prints .valueEnd .beforeAttrName text (b.apply .valueEnd .beforeAttrName text location) := by
  obtain ⟨ledger, entry, here, inBranch, out, tag, attr, value, comment, filled, raw, off⟩ := b
  dsimp only at he hc
  subst he hc
  dsimp only [Coherent] at h
  cases h with
  | content _ hh => cases hh
  | inValue he => cases he
  | value draft ht ha =>
    cases tag with
    | none => cases ht
    | some tag =>
      cases attr with
      | none => cases ha
      | some attr =>
        obtain ⟨name, hname⟩ := Option.isSome_iff_exists.mp ha.2
        have hempty := hn.attr attr rfl ha.2
        simp only [Assembly.apply, endValue, giveValue]
        obtain ⟨hprinted, hplace, hnames⟩ := prints_addAttr
          (b := ⟨ledger.drawnForHtml, .pcdata, .attrValue draft.quotes, inBranch, out, some tag, none,
            none, none, filled, raw, off⟩) ha.1 hname rfl rfl rfl rfl
          ⟨hn.tag, fun _ h => by cases h⟩
          (some (.attrValue ledger.ids.next (.upTo draft.start location.stop) draft.quotes
            draft.children.reverse)) location.stop location.stop
        refine ⟨?_, hplace, hnames⟩
        rw [hprinted]
        subst htext
        simp [Assembly.printed, Context.isPastEquals, AttrDraft.printed, nameSource, hempty, hname,
          ValueDraft.printed, Mark.written, Node.source, Quotes.around, source]

/-- The end of an attribute without a value prints nothing. -/
theorem prints_attrEnd {ledger : Ledger} {part : NamePart} {sep drop inBranch filled : Bool}
    {out : List Node} {tag : TagDraft} {attr : AttrDraft} {raw : Option Nat} {off : Nat}
    {text : Text} {location : Span} (hd : attr.discard = false) (hs : attr.Spells part)
    (hp : part ≠ .empty)
    (hn : NamesWritten ⟨ledger, .pcdata, .attrName part sep drop, inBranch, out, some tag, some attr,
      none, none, filled, raw, off⟩) :
    Prints ⟨ledger, .pcdata, .attrName part sep drop, inBranch, out, some tag, some attr, none, none,
        filled, raw, off⟩ .attrNameEnd .beforeAttrName text
      (apply ⟨ledger, .pcdata, .attrName part sep drop, inBranch, out, some tag, some attr, none, none,
        filled, raw, off⟩ .attrNameEnd .beforeAttrName text location) := by
  obtain ⟨l', attr', name, hfin, hd', hname, htext, hprinted⟩ := finishAttrName_printed rfl hs hp hn
  simp only [apply, endAttr, hfin]
  obtain ⟨hsource, hplace, hnames⟩ := prints_addAttr
    (b := ⟨l', .pcdata, .attrName part sep drop, inBranch, out, some tag, none, none, none, filled,
      raw, off⟩) (hd'.trans hd) hname rfl rfl rfl rfl ⟨hn.tag, fun _ h => by cases h⟩ none
    location.start location.start
  refine ⟨hsource.trans ?_, hplace, hnames⟩
  rw [AttrDraft.printed, nameSource, hname, htext] at hprinted
  simp [Assembly.printed, ← hprinted, Context.isPastEquals, Mark.written]

/-- The start of a value is printed. -/
theorem prints_valueStart {b : Assembly} {quotes : Quotes} {t : Text} {location : Span}
    (hc : b.context = .beforeAttrValue) (h : b.Coherent t) (hn : b.NamesWritten) :
    b.Prints (.valueStart quotes) (.attrValue quotes) quotes.char?.toList
      (b.apply (.valueStart quotes) (.attrValue quotes) quotes.char?.toList location) := by
  obtain ⟨ledger, entry, here, inBranch, out, tag, attr, value, comment, filled, raw, off⟩ := b
  dsimp only at hc
  subst hc
  dsimp only [Coherent] at h
  cases h with
  | content _ hh => cases hh
  | beforeValue ht ha =>
    simp only [apply]
    refine ⟨?_, ?_, hn.congr (enter_tag ..) (enter_attr ..)⟩
    · simp [Assembly.printed, Mark.written, Context.isPastEquals, ValueDraft.printed, source,
        sourceAfter]
    · simp [nextPlace, head, Mark.place, Mark.head, Context.place]

/-- The characters of a tag name are printed. -/
theorem prints_tagNameChars {b : Assembly} {part : NamePart} {t text : Text} {location : Span}
    (hc : b.context = .tagName part) (hp : part ≠ .dynamic) (h : b.Coherent t) :
    b.Prints .tagNameChars (.tagName .static) text
      (b.apply .tagNameChars (.tagName .static) text location) := by
  obtain ⟨ledger, entry, here, inBranch, out, tag, attr, value, comment, filled, raw, off⟩ := b
  dsimp only at hc
  subst hc
  dsimp only [Coherent] at h
  cases h with
  | content _ hh => cases hh
  | @tagName _ tag _ _ hs hf =>
    have hname : tag.name = none := by
      cases part with
      | dynamic => exact absurd rfl hp
      | empty => exact hs.1
      | static => exact hs.1
    refine ⟨?_, ?_, namesWritten_of_attr_eq_none (enter_attr ..) ?_⟩
    · simp [apply, addTagName, Assembly.printed, Mark.written, Context.isPastEquals,
        TagDraft.printed, TagDraft.head, nameSource, hname, hf.1, sourceAfter]
    · simp [apply, addTagName, nextPlace, head, Mark.place, Mark.head, TagDraft.head, nameSource,
        hname]
    · intro tag' ht' n hn'
      simp only [apply, addTagName, enter_tag, Option.some.injEq] at ht'
      subst ht'
      rw [hname] at hn'
      cases hn'

/-- The end of a tag name is printed. -/
theorem prints_tagNameEnd {b : Assembly} {part : NamePart} {t text : Text} {location : Span}
    (hc : b.context = .tagName part) (hp : part ≠ .empty) (h : b.Coherent t)
    (hn : b.NamesWritten) :
    b.Prints .tagNameEnd .beforeAttrName text
      (b.apply .tagNameEnd .beforeAttrName text location) := by
  obtain ⟨ledger, entry, here, inBranch, out, tag, attr, value, comment, filled, raw, off⟩ := b
  dsimp only at hc
  subst hc
  dsimp only [Coherent] at h
  cases h with
  | content _ hh => cases hh
  | @tagName _ tag _ _ hs hf =>
    obtain ⟨tag', l', hfin, -, -⟩ := finishTagName_of_spells
      (b := ⟨ledger, entry, .tagName part, inBranch, out, some tag, none, none, none, filled, raw,
        off⟩) rfl hs hp
    obtain ⟨tag'', htag, hhead, hchildren, hnames⟩ := finishTagName_head
      (b := ⟨ledger, entry, .tagName part, inBranch, out, some tag, none, none, none, filled, raw,
        off⟩) rfl
    have hwritten := hnames hn
    rw [hfin] at htag hwritten
    obtain rfl : tag' = tag'' := Option.some.inj htag
    have hprinted : tag'.printed = tag.printed := by
      unfold TagDraft.printed
      rw [hhead, hchildren, show tag'.close = tag.close from congrArg TagHead.close hhead]
    simp only [apply, hfin]
    refine ⟨?_, ?_, hwritten.congr (enter_tag ..) (enter_attr ..)⟩
    · simp [Assembly.printed, Mark.written, Context.isPastEquals, hprinted]
    · simp [nextPlace, head, hhead, Mark.place, Mark.head]

/-- An attribute that begins is printed with the space before it. -/
theorem prints_attrStart {b : Assembly} {t text : Text} {location : Span}
    (hc : b.context = .beforeAttrName) (h : b.Coherent t) (hn : b.NamesWritten)
    (hclean : (b.apply .attrNameStart (.attrName .empty false false) text location).Clean) :
    b.Prints .attrNameStart (.attrName .empty false false) text
      (b.apply .attrNameStart (.attrName .empty false false) text location) := by
  obtain ⟨ledger, entry, here, inBranch, out, tag, attr, value, comment, filled, raw, off⟩ := b
  dsimp only at hc
  subst hc
  dsimp only [Coherent] at h
  cases h with
  | content _ hh => cases hh
  | inTag ht =>
    have hfault := attrFault?_eq_none
      (b := ⟨ledger, entry, .beforeAttrName, inBranch, out, tag, none, none, none, filled, raw, off⟩)
      ht ((extends_enter ..).clean hclean : ((_ : Assembly).openAttr _ _ _).Clean)
    simp only [apply, openAttr_of_attrFault?_eq_none hfault, hfault]
    refine ⟨?_, ?_, ⟨?_, ?_⟩⟩
    · simp [Assembly.printed, Mark.written, Context.isPastEquals, Context.refusing,
        AttrDraft.printed, nameSource]
    · simp [nextPlace, head, Mark.place, Mark.head, Context.refusing, Context.place]
    · rw [enter_tag]
      exact hn.tag
    · rw [enter_attr]
      intro attr ha
      cases ha
      rintro ⟨⟩

/-- The characters of an attribute name are printed. -/
theorem prints_attrChar {b : Assembly} {part : NamePart} {sep sep' : Bool} {t text : Text}
    {location : Span} (hc : b.context = .attrName part sep false) (hp : part ≠ .dynamic)
    (h : b.Coherent t) (hn : b.NamesWritten) :
    b.Prints .attrNameChar (.attrName .static sep' false) text
      (b.apply .attrNameChar (.attrName .static sep' false) text location) := by
  obtain ⟨ledger, entry, here, inBranch, out, tag, attr, value, comment, filled, raw, off⟩ := b
  dsimp only at hc
  subst hc
  dsimp only [Coherent] at h
  cases h with
  | content _ hh => cases hh
  | @attrName _ _ _ attr _ ht hd hs hne =>
    have hname : attr.name = none := by
      cases part with
      | dynamic => exact absurd rfl hp
      | empty => exact hs.1
      | static => exact hs.1
    simp only [apply, addAttrName, hd, Bool.false_eq_true, if_false]
    refine ⟨?_, ?_, ⟨?_, ?_⟩⟩
    · simp [Assembly.printed, Mark.written, Context.isPastEquals, AttrDraft.printed, nameSource,
        hname]
    · simp [nextPlace, head, Mark.place, Mark.head, Context.place]
    · rw [enter_tag]
      exact hn.tag
    · rw [enter_attr]
      intro attr' ha' hname'
      cases ha'
      simp [hname] at hname'

/-- The `=` after an attribute name is printed after it. -/
theorem prints_equals {b : Assembly} {part : NamePart} {sep drop : Bool} {t : Text}
    {location : Span} (hc : b.context = .attrName part sep drop) (hp : part ≠ .empty)
    (h : b.Coherent t) (hn : b.NamesWritten) :
    b.Prints .attrEquals .beforeAttrValue ['=']
      (b.apply .attrEquals .beforeAttrValue ['='] location) := by
  obtain ⟨ledger, entry, here, inBranch, out, tag, attr, value, comment, filled, raw, off⟩ := b
  dsimp only at hc
  subst hc
  dsimp only [Coherent] at h
  cases h with
  | content _ hh => cases hh
  | @attrName _ _ _ attr _ ht hd hs hne' =>
    obtain ⟨l', attr', name, hfin, -, hname, htext, hprinted⟩ := finishAttrName_printed
      (b := ⟨ledger, entry, .attrName part sep false, inBranch, out, tag, some attr, none, none,
        filled, raw, off⟩) rfl hs hp hn
    simp only [apply, hfin]
    refine ⟨?_, ?_, ⟨?_, ?_⟩⟩
    · simp [Assembly.printed, Mark.written, Context.isPastEquals, hprinted]
    · simp [nextPlace, head, Mark.place, Mark.head, Context.place]
    · rw [enter_tag]
      exact hn.tag
    · rw [enter_attr]
      intro attr'' ha'' _
      cases ha''
      exact htext

/-- **What a mark does is printed as the scan writes it.** -/
theorem printed_apply {b : Assembly} {c : Char} {cs text : Text} {l : Lexeme} {m : Mark}
    {location : Span} (he : b.entry = .pcdata) (h : b.Coherent (c :: cs)) (hn : b.NamesWritten)
    (hl : Context.Move b.context c l) (hm : l.mark = some m) (hf : l.fault = none)
    (htext : ∀ u, m.spelling? b.context = some u → text = u)
    (hclean : (b.apply m l.next text location).Clean) :
    b.Prints m l.next text (b.apply m l.next text location) := by
  obtain ⟨ledger, entry, here, inBranch, out, tag, attr, value, comment, filled, raw, off⟩ := b
  dsimp only at he hl htext
  subst he
  dsimp only [Coherent] at h
  cases hl <;> cases hm <;> try (cases hf; done)
  case openComment =>
    cases h with
    | content _ _ =>
      obtain rfl := htext _ rfl
      refine ⟨?_, rfl, ⟨by rintro _ ⟨⟩, by rintro _ ⟨⟩⟩⟩
      simp [Assembly.apply, Assembly.printed, Mark.written, Context.isPastEquals,
        CommentDraft.printed, source, sourceAfter]
  case openTag close w =>
    cases h with
    | content _ _ =>
      obtain rfl := htext _ rfl
      refine ⟨?_, rfl, ⟨?_, by rintro _ ⟨⟩⟩⟩
      · simp [Assembly.apply, openTag, Assembly.printed, Mark.written, Context.isPastEquals,
          TagDraft.printed, TagDraft.head, nameSource, sourceAfter]
      · intro tag ht n hname
        cases ht
        cases hname
  case closeRcdata e =>
    cases h with
    | content _ _ =>
      obtain rfl := htext _ rfl
      refine ⟨?_, rfl, ⟨?_, by rintro _ ⟨⟩⟩⟩
      · simp [Assembly.apply, openTag, Assembly.printed, Mark.written, Context.isPastEquals,
          TagDraft.printed, TagDraft.head, nameSource, sourceAfter]
      · intro tag ht n hname
        cases ht
        cases hname
  case closeComment =>
    cases h with
    | content _ hh => cases hh
    | inComment he => cases he
    | comment _ =>
      obtain rfl := htext _ rfl
      refine ⟨?_, rfl, ⟨by rintro _ ⟨⟩, by rintro _ ⟨⟩⟩⟩
      simp only [Assembly.apply, endComment, addOut, Assembly.printed, enter_out, enter_tag,
        enter_attr, enter_value, enter_comment, enter_context, List.reverse_cons, source]
      rw [sourceAfter_concat (fun spaced => by rw [Node.source])]
      simp [Mark.written, Context.isPastEquals, CommentDraft.printed, source]
  case nameChars part w hp => exact prints_tagNameChars rfl hp h
  case nameEnd part hp => exact prints_tagNameEnd rfl hp h hn
  case skipInTag w =>
    cases h with
    | content _ hh => cases hh
    | inTag ht =>
      simp only [Assembly.apply, Context.discards, Bool.false_and, Bool.false_eq_true, if_false]
      refine ⟨?_, ?_, hn.congr (enter_tag ..) (enter_attr ..)⟩
      · simp [Assembly.printed, Mark.written]
      · simp [nextPlace, head, Mark.place, Mark.head]
  case endTag selfClosing w =>
    cases h with
    | content _ hh => cases hh
    | @inTag tag _ ht =>
      cases tag with
      | none => cases ht
      | some tag =>
        obtain rfl := htext _ rfl
        exact prints_tagEnd rfl rfl rfl rfl rfl rfl ht.2.1 ht.2.2 hn hclean
  case attrStart hs => exact prints_attrStart rfl h hn hclean
  case skipDropped part sep =>
    cases h with
    | content _ hh => cases hh
  case attrChar part sep sep' hp => exact prints_attrChar rfl hp h hn
  case equals part sep drop hne =>
    obtain rfl := htext _ rfl
    have hp : part ≠ .empty := by
      rintro rfl
      cases h with
      | content _ hh => cases hh
      | attrName _ _ _ hne' =>
        obtain ⟨_, _, hcs, hstart⟩ := hne' rfl
        cases hcs
        simp [hne rfl rfl] at hstart
    exact prints_equals rfl hp h hn
  case attrEnd part sep drop hne =>
    cases h with
    | content _ hh => cases hh
    | @attrName _ _ _ attr _ ht hd hs hne' =>
      have hp : part ≠ .empty := by
        rintro rfl
        obtain ⟨_, _, hcs, hstart⟩ := hne' rfl
        cases hcs
        simp [hne rfl rfl] at hstart
      cases tag with
      | none => cases ht
      | some tag =>
        exact prints_attrEnd hd hs hp hn
  case skipBeforeValue w =>
    cases h with
    | content _ hh => cases hh
    | beforeValue ht ha =>
      simp only [Assembly.apply, Context.discards, Bool.false_and, Bool.false_eq_true, if_false]
      refine ⟨?_, ?_, hn.congr (enter_tag ..) (enter_attr ..)⟩
      · simp [Assembly.printed, Mark.written]
      · simp [nextPlace, head, Mark.place, Mark.head]
  case openQuoted quotes hq =>
    obtain rfl := htext _ rfl
    exact prints_valueStart rfl h hn
  case openBare =>
    obtain rfl := htext _ rfl
    exact prints_valueStart rfl h hn
  case closeBare => exact prints_valueEnd rfl h rfl hn (htext _ rfl)
  case closeQuoted quotes hq => exact prints_valueEnd rfl h rfl hn (htext _ rfl)

/-! ## 5. A run -/

/-- What is printed and held, and what the scan writes for the text that is left, make up `r`. -/
structure Trims (r : Text × Place) (b : Assembly) (held t : Text) : Prop where
  entry : b.entry = .pcdata
  coherent : b.Coherent t
  names : b.NamesWritten
  scan : Place.lead (b.printed ++ held) (b.nextPlace.scan t) = r

/-- **A run of raw text prints what the scan writes.** -/
theorem Trims.read {r : Text × Place} {b : Assembly} {run : RawRun} {t : Text}
    (h : b.Trims r [] t) (hc : (b.read run 0 none t).Clean) :
    (b.read run 0 none t).Trims r [] [] := by
  refine read_rule (P := fun b held t => b.Clean → b.Trims r held t) ?_ ?_ ?_ (fun _ => h) nofun hc
  · intro b held c cs location offset hP hm hc
    have hf := fault_eq_none_of_clean (.refl _) ((extends_enter ..).clean hc)
    have hcoherent := Coherent.content_of_clean location offset (fun h => (hP h).coherent) hm hc
    rw [reportLexeme_of_fault_eq_none hf] at hc hcoherent ⊢
    obtain ⟨he, h, hn, hscan⟩ := hP ((extends_enter ..).clean hc)
    refine ⟨(enter_entry ..).trans he, hcoherent, hn.congr (enter_tag ..) (enter_attr ..), ?_⟩
    have hl : _ = _ := b.context.scanned_lexeme c cs b.head h.discards hf
    rw [printed_enter_content (Context.lexeme_move ..) hm, ← hscan, nextPlace, nextPlace, hl,
      Place.lead_lead, enter_context, head, enter_tag, Lexeme.written, Lexeme.place, hm,
      List.append_assoc]
    rfl
  · intro b held t location hP _ hh hc
    obtain ⟨he, h, hn, hscan⟩ := hP ((extends_addText ..).clean hc)
    obtain ⟨hprinted, hhead, hnames⟩ := printed_addText he h hh held location
    refine ⟨((extends_addText ..).entry).trans he, h.addText held location, hnames hn, ?_⟩
    rw [hprinted, List.append_nil, nextPlace, addText_context, hhead]
    exact hscan
  · intro b c cs m location place hP hm hc
    have hf := fault_eq_none_of_clean (.refl _) ((extends_apply ..).clean hc)
    have hcoherent := Coherent.mark_of_clean location place (fun h => (hP h).coherent) hm hc
    rw [reportLexeme_of_fault_eq_none hf] at hc hcoherent ⊢
    obtain ⟨he, h, hn, hscan⟩ := hP ((extends_apply ..).clean hc)
    obtain ⟨hprinted, hplace, hnames⟩ := printed_apply he h hn (Context.lexeme_move ..) hm hf
      (fun u hu => Context.take_lexeme hm hu) hc
    refine ⟨((extends_apply ..).entry).trans he, hcoherent, hnames, ?_⟩
    have hl : _ = _ := b.context.scanned_lexeme c cs b.head h.discards hf
    rw [hprinted, hplace, ← hscan, nextPlace, hl, Place.lead_lead, Lexeme.written, Lexeme.place, hm,
      List.append_nil, List.append_nil]
    rfl

theorem Trims.readRun {r : Text × Place} {b : Assembly} {run : RawRun}
    (h : b.Trims r [] run.text) (hc : (b.readRun run).Clean) : (b.readRun run).Trims r [] [] := by
  obtain ⟨he, hcoherent, hn, hscan⟩ := Trims.read (b := { b with ledger := b.ledger.countRun })
    ⟨h.entry, h.coherent, h.names.congr rfl rfl, h.scan⟩ hc
  exact ⟨he, hcoherent, hn.congr rfl rfl, hscan⟩

/-- Before a text is read the scan of it is due. -/
theorem trims_start (l : Ledger) (offset : Nat) (t : Text) :
    (start l .pcdata false offset).Trims (Place.content.scan t) [] t := by
  refine ⟨rfl, (coherent_start l false offset rfl).restrict_nil, namesWritten_start .., ?_⟩
  simp [printed, start, source, sourceAfter, nextPlace, Context.isPastEquals, Context.place]

/-! ## 6. The end of the block -/

/-- A block that ends in a raw context is reported. -/
theorem isRaw_eq_false_of_clean {b : Assembly} {block : BlockKind} (he : b.entry = .pcdata)
    (hc : (b.checkContext block).Clean) : b.context.isRaw = false := by
  cases hr : b.context.isRaw with
  | false => rfl
  | true =>
    unfold checkContext at hc
    have hne : (b.context != b.entry) = true := by
      rw [he, bne_iff_ne]
      intro h
      rw [h] at hr
      cases hr
    rw [if_pos (by rw [hne, hr]; rfl)] at hc
    exact absurd hc (not_clean_report _ _ _)

/-- A tag whose name has not begun becomes text at the end of the block. -/
theorem source_abortTag {ledger : Ledger} {entry : Context} {inBranch filled : Bool}
    {out : List Node} {tag : TagDraft} {raw : Option Nat} {off : Nat} (hs : tag.Spells .empty)
    (hf : tag.IsFresh) :
    let b : Assembly := ⟨ledger, entry, .tagName .empty, inBranch, out, some tag, none, none, none,
      filled, raw, off⟩
    source b.closeDrafts.nodes = b.printed := by
  intro b
  obtain ⟨l, nodes, hadd, hsource⟩ := addText_source ({ b with tag := none }.enter tag.outside
    tag.start) ((if tag.close then ['<', '/'] else ['<']) ++ tag.nameText)
    (Span.upTo tag.start tag.nameLocation.stop)
  have hcontent : tag.outside.isContent = true := by
    unfold TagDraft.outside
    split <;> rfl
  have habort : b.abortTag = { { b with tag := none }.enter tag.outside tag.start with
      ledger := l, out := nodes } := by
    unfold abortTag
    simp only [b, hs.1]
    simp only [b] at hadd
    rw [hadd, setContent_of_isContent (by dsimp only; rw [enter_context]; exact hcontent)]
  have hclosed : b.abortTag.Closed := by
    rw [habort]
    refine ⟨?_, ?_, ?_, ?_⟩
    · exact enter_tag ..
    · exact enter_attr ..
    · exact enter_value ..
    · exact enter_comment ..
  have hclose : b.closeDrafts = b.abortTag := by
    obtain ⟨ht, ha, hv, hm⟩ := hclosed
    rw [closeDrafts_eq, show b.settleAtEnd = b.abortTag from rfl]
    simp only [closeValue, hv, closeAnyAttr, ha, closeTag, ht, closeAnyComment, hm,
      Option.isSome_none, Bool.false_eq_true, if_false]
  rw [hclose, habort, Assembly.nodes]
  dsimp only
  rw [hsource]
  rw [content_of_isContent (by rw [enter_context]; exact hcontent), enter_out]
  simp [printed, b, TagDraft.printed, TagDraft.head, nameSource, hs.1, hs.2, hf.1, sourceAfter,
    Context.isPastEquals]
  cases tag.close <;> rfl

/-- **At the end of the block nothing more is printed**, unless it ends in a tag. -/
theorem source_endBlock {r : Text × Place} {b : Assembly} {block : BlockKind}
    (h : b.Trims r [] []) (hc : (b.endBlock block).Clean) (hr : r.2.isInTag = false) :
    source (b.endBlock block).nodes = r.1 := by
  obtain ⟨he, h, hn, rfl⟩ := h
  rw [Place.lead_scan_nil, List.append_nil] at hr ⊢
  dsimp only at hr ⊢
  have hraw := isRaw_eq_false_of_clean he ((extends_closeDrafts _).clean hc)
  have hcheck : b.checkContext block = b := by
    unfold checkContext
    rw [hraw, Bool.and_false, if_neg (by simp)]
  rw [endBlock, hcheck]
  obtain ⟨ledger, entry, here, inBranch, out, tag, attr, value, comment, filled, raw, off⟩ := b
  dsimp only at he hraw
  subst he
  dsimp only [Coherent] at h
  cases h with
  | content _ hh =>
    obtain rfl : here = .pcdata := by cases here <;> first | rfl | (cases hh; done) | cases hraw
    rw [closeDrafts_of_closed ⟨rfl, rfl, rfl, rfl⟩ rfl]
    simp [printed, Context.isPastEquals, Assembly.nodes]
  | comment | inComment => cases hraw
  | inValue he => cases he
  | @tagName part tag _ _ hs hf =>
    cases part with
    | empty => exact source_abortTag hs hf
    | static =>
      simp [nextPlace, head, Context.place, Place.isInTag, TagDraft.head, nameSource, hs.2] at hr
    | dynamic =>
      obtain ⟨n, hname⟩ := Option.isSome_iff_exists.mp hs
      obtain ⟨-, _, _, t, rfl, ht⟩ := hn.tag tag rfl n hname
      simp [nextPlace, head, Context.place, Place.isInTag, TagDraft.head, nameSource, hname,
        Node.source, ht] at hr
  | inTag | attrName | beforeValue | value => cases hr

end Assembly

/-! ## 7. Templates -/

/-- A source without `{` is read as one piece of text, which is all of it. -/
theorem Template.read_plain_cons {c : Char} {cs : Text} (hs : '{' ∉ c :: cs) (kind : ContentKind)
    (ids : IdSource) : ∃ t ids' id, ∃ location : Span,
      Template.read (c :: cs) kind ids = .ok (t, ids') ∧ t.kind = kind
        ∧ t.nodes = [.raw id location (c :: cs)]
        ∧ location.start = 0 ∧ location.stop = Text.size (c :: cs) := by
  obtain ⟨hc, hcs⟩ : '{' ≠ c ∧ '{' ∉ cs := by simpa using hs
  have hall : ∀ d ∈ cs, (d != '{') = true := fun d hd => by
    rw [bne_iff_ne]
    rintro rfl
    exact hcs hd
  unfold Template.read
  rw [Token.scan, if_neg (Ne.symm hc)]
  simp only [List.dropWhile_eq_nil_iff.mpr hall, List.takeWhile_eq_self_iff.mpr hall]
  rw [Token.scan]
  exact ⟨_, _, _, _, rfl, rfl, rfl, rfl, Nat.zero_add _⟩

/-- A source without `{` is read as its text. -/
theorem Template.read_plain {s : Text} (hs : '{' ∉ s) (kind : ContentKind) (ids : IdSource) :
    ∃ t ids', Template.read s kind ids = .ok (t, ids') ∧ t.kind = kind
      ∧ (s = [] ∧ t.nodes = [] ∨ ∃ id location, t.nodes = [.raw id location s]) := by
  cases s with
  | nil =>
    unfold Template.read
    rw [Token.scan]
    exact ⟨_, _, rfl, rfl, .inl ⟨rfl, rfl⟩⟩
  | cons c cs =>
    obtain ⟨t, ids', id, location, hread, hkind, hnodes, -, -⟩ :=
      Template.read_plain_cons hs kind ids
    exact ⟨t, ids', hread, hkind, .inr ⟨id, location, hnodes⟩⟩

/-- **The source of html without commands is that html, trimmed in its tags**: for every text
without `{` that is rewritten without reports and does not break off in a tag. -/
theorem Template.source_of_plain {s : Text} (hs : '{' ∉ s) (ids : IdSource) (config : Config)
    (fresh : IdSource) :
    ∃ t ids', Template.read s .html ids = .ok (t, ids')
      ∧ ((t.rewrite config fresh).diagnostics = [] → endsInTag s = false →
        source (t.rewrite config fresh).result.nodes = trimTags s) := by
  obtain ⟨t, ids', hread, hkind, hnodes⟩ := Template.read_plain hs .html ids
  refine ⟨t, ids', hread, fun hclean hend => ?_⟩
  have hrun : ∀ b, b = feedNodes (.start (Ledger.start config fresh).countBlock .pcdata false
      t.location.start) none t.nodes → b.Clean → b.Trims (Place.content.scan s) [] [] := by
    rintro b rfl hc
    rcases hnodes with ⟨rfl, hnil⟩ | ⟨id, location, hraw⟩
    · rw [hnil, feedNodes]
      exact Assembly.trims_start ..
    · rw [hraw] at hc ⊢
      rw [feedNodes] at hc ⊢
      dsimp only [Node.rawText?, Assembly.collect] at hc ⊢
      rw [feedNodes] at hc ⊢
      refine Assembly.Trims.readRun ?_ hc
      rw [RawRun.text_single]
      exact Assembly.trims_start ..
  unfold Template.rewrite rewriteBlock at hclean ⊢
  rw [hkind] at hclean ⊢
  rw [rewriteValue] at hclean ⊢
  dsimp only [Ledger.outcome, Value.nodes, declaredOrHtml, Option.getD, Context.entry?] at hclean ⊢
  have hclean := List.reverse_eq_nil_iff.mp hclean
  have hprinted := hrun _ rfl ((Assembly.extends_endBlock ..).clean hclean)
  exact Assembly.source_endBlock hprinted hclean hend

/-- In `<a b= 'c' / >x</a >` what stands in the tags besides `b='c'` is trimmed. -/
theorem Template.source_of_plain_link :
    '{' ∉ "<a  b= 'c' / >x</a >".toList
      ∧ ∃ t ids, Template.read "<a  b= 'c' / >x</a >".toList .html (.startingAt 0) = .ok (t, ids)
        ∧ (t.rewrite {} ids).diagnostics = []
        ∧ source (t.rewrite {} ids).result.nodes = "<a b='c'>x</a>".toList := by
  have hcheck : (Template.read "<a  b= 'c' / >x</a >".toList .html (.startingAt 0)).toOption.any
      (fun r => (r.1.rewrite {} r.2).diagnostics.isEmpty) = true := by decide +kernel
  have hs : '{' ∉ "<a  b= 'c' / >x</a >".toList := by decide
  have hend : endsInTag "<a  b= 'c' / >x</a >".toList = false := by decide +kernel
  have htrim : trimTags "<a  b= 'c' / >x</a >".toList = "<a b='c'>x</a>".toList := by decide +kernel
  obtain ⟨t, ids, hread, -⟩ := Template.source_of_plain hs (.startingAt 0) {} (.startingAt 0)
  rw [hread] at hcheck
  have hclean := List.isEmpty_iff.mp hcheck
  obtain ⟨t', ids', hread', h⟩ := Template.source_of_plain hs (.startingAt 0) {} ids
  obtain ⟨rfl, -⟩ := Prod.mk.inj (Except.ok.inj (hread.symm.trans hread'))
  exact ⟨hs, t, ids, hread, hclean, (h hclean hend).trans htrim⟩

end TemplateMarkup
