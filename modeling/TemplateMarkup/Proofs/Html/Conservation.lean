/-
# No node is lost or doubled

An assembly holds nodes in several places: among the finished nodes, as the name or among the
children of a tag, as the name of an attribute, in a value, in a comment.  `cargo` is the sum of
their inventories.  `Yields b extra safe b'` says that going from `b` to `b'` brought in `extra` and
an entry for each node of html that was made, and doubled nothing; and lost nothing either if `safe`
holds.

Each operation has its own `safe`: a draft that is opened must not be open already, an attribute
that is added must have a name.  In a clean run the stage of the assembly provides all of them
(`Proofs.Html.Coherence`).
-/
import TemplateMarkup.Proofs.Html.Coherence
import TemplateMarkup.Proofs.Tree.Authored

namespace TemplateMarkup

/-! ## 1. What is carried over -/

/-- What there is before is there after and nothing else; if `safe`, all of it is. -/
def Kept {α : Type} (safe : Prop) (before after : Multiset α) : Prop :=
  after ≤ before ∧ (safe → after = before)

theorem Kept.mono {α : Type} {safe safe' : Prop} {before after : Multiset α}
    (h : Kept safe before after) (hs : safe' → safe) : Kept safe' before after :=
  ⟨h.1, fun hs' => h.2 (hs hs')⟩

namespace Ledger

/-- The nodes of html that have been made. -/
def made (l : Ledger) : Nat := l.stats.structuralNodes

/-- From the first ledger to the second what there is stays, and nothing else comes to it than an
entry for each node of html that is made; if `safe`, all of it stays. -/
def Carries (l : Ledger) (safe : Prop) (before after : Multiset (Option Node)) (l' : Ledger) :
    Prop :=
  ∃ k, l'.made = (Count.add · 1)^[k] l.made
    ∧ Kept safe (before + Multiset.replicate k none) after

namespace Carries

variable {l l' l'' : Ledger} {safe safe' : Prop} {before between after : Multiset (Option Node)}

/-- Nothing is made. -/
theorem of_kept (hl : l'.made = l.made) (h : Kept safe before after) :
    l.Carries safe before after l' :=
  ⟨0, hl, by rwa [Multiset.replicate_zero, add_zero]⟩

theorem of_eq (hl : l'.made = l.made) (h : after = before) : l.Carries safe before after l' :=
  .of_kept hl ⟨h.le, fun _ => h⟩

theorem refl (l : Ledger) : l.Carries safe before before l := .of_eq rfl rfl

/-- One node is made. -/
theorem of_made (hl : l'.made = Count.add l.made 1) (h : after = before + {none}) :
    l.Carries safe before after l' :=
  ⟨1, hl, h.le, fun _ => h⟩

theorem mono (h : l.Carries safe before after l') (hs : safe' → safe) :
    l.Carries safe' before after l' := by
  obtain ⟨k, hmade, hkept⟩ := h
  exact ⟨k, hmade, hkept.mono hs⟩

/-- Two parts, one after the other. -/
theorem add {m m' n n' : Multiset (Option Node)} (h : l.Carries safe m m' l')
    (h' : l'.Carries safe n n' l'') : l.Carries safe (m + n) (m' + n') l'' := by
  obtain ⟨k, hmade, hle, heq⟩ := h
  obtain ⟨k', hmade', hle', heq'⟩ := h'
  have hsum : m + n + Multiset.replicate (k' + k) none
      = (m + Multiset.replicate k none) + (n + Multiset.replicate k' none) := by
    rw [Multiset.replicate_add]
    abel
  refine ⟨k' + k, by rw [Function.iterate_add_apply, ← hmade, hmade'], ?_⟩
  rw [hsum]
  exact ⟨add_le_add hle hle', fun hs => by rw [heq hs, heq' hs]⟩

theorem add_left (n : Multiset (Option Node)) (h : l.Carries safe before after l') :
    l.Carries safe (n + before) (n + after) l' := (refl l).add h

theorem add_right (n : Multiset (Option Node)) (h : l.Carries safe before after l') :
    l.Carries safe (before + n) (after + n) l' := h.add (refl l')

/-- One step after another. -/
theorem trans (h : l.Carries safe before between l') (h' : l'.Carries safe' between after l'') :
    l.Carries (safe ∧ safe') before after l'' := by
  obtain ⟨k, hmade, hle, heq⟩ := h
  obtain ⟨k', hmade', hle', heq'⟩ := h'
  have hsum : before + Multiset.replicate (k' + k) none
      = before + Multiset.replicate k none + Multiset.replicate k' none := by
    rw [Multiset.replicate_add]
    abel
  refine ⟨k' + k, by rw [Function.iterate_add_apply, ← hmade, hmade'], ?_⟩
  rw [hsum]
  exact ⟨hle'.trans (by gcongr), fun ⟨hs, hs'⟩ => by rw [heq' hs', heq hs]⟩

end Carries

end Ledger

/-! ## 2. Cargo -/

/-- The inventory of a tag. -/
def TagDraft.cargo (t : TagDraft) : Multiset (Option Node) :=
  inventory t.name.toList + inventory t.children

/-- The inventory of an attribute. -/
def AttrDraft.cargo (a : AttrDraft) : Multiset (Option Node) := inventory a.name.toList

/-- The inventory of a value. -/
def ValueDraft.cargo (v : ValueDraft) : Multiset (Option Node) := inventory v.children

/-- The inventory of a comment. -/
def CommentDraft.cargo (c : CommentDraft) : Multiset (Option Node) := inventory c.children

namespace Assembly

/-- The inventory of what an assembly holds. -/
def cargo (b : Assembly) : Multiset (Option Node) :=
  inventory b.out + b.tag.elim 0 TagDraft.cargo + b.attr.elim 0 AttrDraft.cargo
    + b.value.elim 0 ValueDraft.cargo + b.comment.elim 0 CommentDraft.cargo

/-- The second assembly holds what the first holds, `extra` and the nodes of html that were made,
or less; if `safe`, all of it. -/
def Yields (b : Assembly) (extra : Multiset (Option Node)) (safe : Prop) (b' : Assembly) : Prop :=
  b.ledger.Carries safe (b.cargo + extra) b'.cargo b'.ledger

section

variable {b b' b'' : Assembly} {extra extra' : Multiset (Option Node)} {safe safe' : Prop}

theorem Yields.of_eq (hl : b'.ledger.made = b.ledger.made) (h : b'.cargo = b.cargo + extra) :
    b.Yields extra safe b' := .of_kept hl ⟨h.le, fun _ => h⟩

theorem Yields.of_cargo_eq (hl : b'.ledger.made = b.ledger.made) (h : b'.cargo = b.cargo) :
    b.Yields 0 safe b' := .of_eq hl (by rw [h, add_zero])

theorem Yields.refl (b : Assembly) : b.Yields 0 safe b := .of_cargo_eq rfl rfl

/-- Something is lost, unless `safe`. -/
theorem Yields.of_le (lost : Multiset (Option Node)) (hl : b'.ledger.made = b.ledger.made)
    (h : b.cargo + extra = b'.cargo + lost) (hs : safe → lost = 0) : b.Yields extra safe b' := by
  refine .of_kept hl ⟨?_, fun hsafe => ?_⟩
  · rw [h]
    exact Multiset.le_add_right _ _
  · rw [h, hs hsafe, add_zero]

/-- A node of html is made of what is brought in. -/
theorem Yields.of_made (hl : b'.ledger.made = Count.add b.ledger.made 1)
    (h : b'.cargo = b.cargo + extra + {none}) : b.Yields extra safe b' :=
  Ledger.Carries.of_made hl h

theorem Yields.mono (h : b.Yields extra safe b') (hs : safe' → safe) : b.Yields extra safe' b' :=
  Ledger.Carries.mono h hs

/-- One step after another. -/
theorem Yields.trans (h : b.Yields extra safe b') (h' : b'.Yields extra' safe' b'') :
    b.Yields (extra + extra') (safe ∧ safe') b'' := by
  have := (Ledger.Carries.add_right extra' h).trans h'
  rwa [add_assoc] at this

/-- What is brought in may have been moved about before, or taken from the assembly. -/
theorem Yields.moved (h : b.ledger.Carries safe (b.cargo + extra) (b'.cargo + extra') b'.ledger)
    (h' : b'.Yields extra' safe' b'') : b.Yields extra (safe ∧ safe') b'' :=
  Ledger.Carries.trans h h'

/-- A step that brings in nothing may stand after another. -/
theorem Yields.then (h : b.Yields extra safe b') (h' : b'.Yields 0 safe' b'') :
    b.Yields extra (safe ∧ safe') b'' := by
  have := h.trans h'
  rwa [add_zero] at this

/-- Or before it. -/
theorem Yields.after (h : b.Yields 0 safe b') (h' : b'.Yields extra safe' b'') :
    b.Yields extra (safe ∧ safe') b'' := by
  have := h.trans h'
  rwa [zero_add] at this

end

/-! ## 3. Content -/

@[simp] theorem cargo_ledger (b : Assembly) (l : Ledger) :
    { b with ledger := l }.cargo = b.cargo := rfl

@[simp] theorem cargo_report (b : Assembly) (location : Span) (fault : Fault) :
    (b.report location fault).cargo = b.cargo := rfl

@[simp] theorem cargo_enter (b : Assembly) (next : Context) (offset : Nat) :
    (b.enter next offset).cargo = b.cargo := by
  unfold enter
  split <;> rfl

@[simp] theorem made_report (b : Assembly) (location : Span) (fault : Fault) :
    (b.report location fault).ledger.made = b.ledger.made := rfl

@[simp] theorem made_enter (b : Assembly) (next : Context) (offset : Nat) :
    (b.enter next offset).ledger.made = b.ledger.made := by
  unfold enter
  split <;> rfl

/-- Entering another context after a step brings nothing in. -/
theorem Yields.enter {b b' : Assembly} {extra : Multiset (Option Node)} {safe : Prop}
    (h : b.Yields extra safe b') (next : Context) (offset : Nat) :
    b.Yields extra safe (b'.enter next offset) :=
  (h.then (.of_cargo_eq (made_enter ..) (cargo_enter ..) : b'.Yields 0 True _)).mono
    fun hs => ⟨hs, trivial⟩

@[simp] theorem cargo_addOut (b : Assembly) (node : Node) :
    (b.addOut node).cargo = b.cargo + node.inventory := by
  simp only [cargo, addOut, inventory_cons]
  abel

@[simp] theorem made_addOut (b : Assembly) (node : Node) :
    (b.addOut node).ledger.made = b.ledger.made := rfl

/-- Content is part of what an assembly holds, so changing it changes the cargo by as much. -/
theorem cargo_setContent (b : Assembly) (nodes : List Node) :
    (b.setContent nodes).cargo + inventory b.content = b.cargo + inventory nodes := by
  unfold setContent content
  split <;> simp only [cargo, ValueDraft.cargo, CommentDraft.cargo, Option.elim_some, *] <;> abel

@[simp] theorem made_setContent (b : Assembly) (nodes : List Node) :
    (b.setContent nodes).ledger.made = b.ledger.made := by
  unfold setContent
  split <;> rfl

@[simp] theorem cargo_addContent (b : Assembly) (node : Node) :
    (b.addContent node).cargo = b.cargo + node.inventory := by
  have h := b.cargo_setContent (node :: b.content)
  rw [inventory_cons, ← add_assoc] at h
  exact add_right_cancel h

@[simp] theorem made_addContent (b : Assembly) (node : Node) :
    (b.addContent node).ledger.made = b.ledger.made := made_setContent ..

@[simp] theorem cargo_addText (b : Assembly) (text : Text) (location : Span) :
    (b.addText text location).cargo = b.cargo := by
  unfold addText
  split
  · next id before t nodes h =>
    have h' := b.cargo_setContent (.raw id (before.union location) (t ++ text) :: nodes)
    rw [h, inventory_cons, inventory_cons, Node.inventory_raw, Node.inventory_raw] at h'
    exact add_right_cancel h'
  · have h' := cargo_setContent { b with ledger := b.ledger.drawn }
      (.raw b.ledger.ids.next location text :: b.content)
    rw [inventory_cons, Node.inventory_raw, zero_add] at h'
    exact add_right_cancel h'

@[simp] theorem made_addText (b : Assembly) (text : Text) (location : Span) :
    (b.addText text location).ledger.made = b.ledger.made := by
  unfold addText
  split
  · exact made_setContent ..
  · exact (made_setContent ..).trans rfl

@[simp] theorem cargo_addAmongAttrs (b : Assembly) (node : Node) :
    (b.addAmongAttrs node).cargo = b.cargo + node.inventory := by
  unfold addAmongAttrs
  split
  · next tag h =>
    simp only [cargo, TagDraft.cargo, h, Option.elim_some, inventory_cons]
    abel
  · exact b.cargo_addOut node

@[simp] theorem made_addAmongAttrs (b : Assembly) (node : Node) :
    (b.addAmongAttrs node).ledger.made = b.ledger.made := by
  unfold addAmongAttrs
  split <;> rfl

/-! ## 4. Tags -/

theorem yields_openTag (b : Assembly) (close : Bool) (location : Span) :
    b.Yields 0 (b.tag = none) (b.openTag close location) := by
  refine .of_le (b.tag.elim 0 TagDraft.cargo) rfl ?_ fun h => by rw [h, Option.elim_none]
  simp only [cargo, openTag, TagDraft.cargo, Option.elim_some, Option.toList_none, inventory_nil]
  abel

@[simp] theorem cargo_addTagName (b : Assembly) (text : Text) (location : Span) :
    (b.addTagName text location).cargo = b.cargo := by
  unfold addTagName
  split
  · rfl
  · next h => simp only [cargo, TagDraft.cargo, h, Option.elim_some]

@[simp] theorem made_addTagName (b : Assembly) (text : Text) (location : Span) :
    (b.addTagName text location).ledger.made = b.ledger.made := by
  unfold addTagName
  split <;> rfl

theorem yields_addTagName (b : Assembly) (text : Text) (location : Span) {safe : Prop} :
    b.Yields 0 safe (b.addTagName text location) :=
  .of_cargo_eq (b.made_addTagName ..) (b.cargo_addTagName ..)

@[simp] theorem cargo_finishTagName (b : Assembly) : b.finishTagName.cargo = b.cargo := by
  unfold finishTagName
  split
  · rfl
  · next tag h =>
    split
    · next hn =>
      have hn : tag.name = none := by simp_all
      simp [cargo, TagDraft.cargo, h, hn]
    · rfl

@[simp] theorem made_finishTagName (b : Assembly) :
    b.finishTagName.ledger.made = b.ledger.made := by
  unfold finishTagName
  split
  · rfl
  · split <;> rfl

theorem yields_finishTagName (b : Assembly) {safe : Prop} : b.Yields 0 safe b.finishTagName :=
  .of_cargo_eq b.made_finishTagName b.cargo_finishTagName

/-- Giving up a tag loses what stands among its attributes. -/
theorem yields_abortTag (b : Assembly) :
    b.Yields 0 (∀ t, b.tag = some t → t.children = []) b.abortTag := by
  unfold abortTag
  split
  · exact .refl b
  · next tag h =>
    have hb : b.cargo + 0 = { b with tag := none }.cargo + inventory tag.name.toList
        + inventory tag.children := by
      simp only [cargo, TagDraft.cargo, h, Option.elim_some, Option.elim_none]
      abel
    have hlost : (∀ t, b.tag = some t → t.children = []) → inventory tag.children = 0 :=
      fun hs => by rw [hs tag h, inventory_nil]
    dsimp only
    split
    · next name hn =>
      refine .of_le (inventory tag.children) (by simp) ?_ hlost
      rw [hb]
      simp [hn]
    · next hn =>
      refine .of_le (inventory tag.children) (by simp) ?_ hlost
      rw [hb]
      simp [hn]

theorem yields_addCloseTag (b : Assembly) (tag : TagDraft) (name : Node) (location : Span) :
    b.Yields (name.inventory + inventory tag.children) True (b.addCloseTag tag name location) := by
  refine .of_made ?_ ?_
  · unfold addCloseTag
    dsimp only
    rw [made_enter]
    split <;> split <;> rfl
  · unfold addCloseTag
    dsimp only
    rw [cargo_enter]
    split <;> split <;>
      simp only [cargo, report, inventory_append, inventory_cons, Node.inventory_closeTag] <;> abel

theorem yields_addOpenTag (b : Assembly) (tag : TagDraft) (name : Node) (location : Span)
    (selfClosing bodyFollows : Bool) :
    b.Yields (name.inventory + inventory tag.children) True
      (b.addOpenTag tag name location selfClosing bodyFollows) := by
  refine .of_made ?_ ?_
  · unfold addOpenTag
    rw [made_enter]
    rfl
  · unfold addOpenTag
    rw [cargo_enter]
    simp only [cargo, inventory_cons, Node.inventory_openTag, inventory_reverse]
    abel

/-- A tag that ends takes its name and its children along, unless it has no name. -/
theorem yields_closeTag (b : Assembly) (selfClosing : Bool) (stop : Nat) (bodyFollows : Bool) :
    b.Yields 0 (∀ t, b.tag = some t → t.name.isSome = true ∨ t.children = [])
      (b.closeTag selfClosing stop bodyFollows) := by
  unfold closeTag
  split
  · exact .refl b
  · next tag h =>
    split
    · next hn =>
      refine b.yields_abortTag.mono fun hs t ht => ?_
      rcases hs t ht with hsome | hnil
      · rw [h] at ht
        cases ht
        simp [hn] at hsome
      · exact hnil
    · next name hn =>
      have hmoved : b.ledger.Carries True (b.cargo + 0)
          ({ b with tag := none }.cargo + (name.inventory + inventory tag.children)) b.ledger := by
        refine .of_eq rfl ?_
        simp only [cargo, TagDraft.cargo, h, hn, Option.elim_some, Option.elim_none,
          Option.toList_some, inventory_cons, inventory_nil]
        abel
      dsimp only
      split
      · exact (Yields.moved hmoved (yields_addCloseTag ..)).mono fun _ => ⟨trivial, trivial⟩
      · exact (Yields.moved hmoved (yields_addOpenTag ..)).mono fun _ => ⟨trivial, trivial⟩

/-! ## 5. Attributes, values and comments -/

@[simp] theorem cargo_reportAttr (b : Assembly) (location : Span) :
    (b.reportAttr location).cargo = b.cargo := by
  unfold reportAttr
  split
  · rfl
  · rfl
  · next h =>
    split
    · rfl
    · simp only [cargo, TagDraft.cargo, report, h, Option.elim_some]

@[simp] theorem made_reportAttr (b : Assembly) (location : Span) :
    (b.reportAttr location).ledger.made = b.ledger.made := by
  unfold reportAttr
  split
  · rfl
  · rfl
  · split <;> rfl

theorem yields_openAttr (b : Assembly) (location : Span) (name : Option Node) (discard : Bool) :
    b.Yields (inventory name.toList) (b.attr = none) (b.openAttr location name discard) := by
  refine .of_le (b.attr.elim 0 AttrDraft.cargo) (b.made_reportAttr location) ?_
    fun h => by rw [h, Option.elim_none]
  rw [← b.cargo_reportAttr location, ← b.reportAttr_attr location]
  simp only [cargo, openAttr, AttrDraft.cargo, Option.elim_some]
  abel

@[simp] theorem cargo_addAttrName (b : Assembly) (text : Text) (location : Span) :
    (b.addAttrName text location).cargo = b.cargo := by
  unfold addAttrName
  split
  · rfl
  · next h =>
    split
    · rfl
    · simp only [cargo, AttrDraft.cargo, h, Option.elim_some]

@[simp] theorem made_addAttrName (b : Assembly) (text : Text) (location : Span) :
    (b.addAttrName text location).ledger.made = b.ledger.made := by
  unfold addAttrName
  split
  · rfl
  · split <;> rfl

theorem yields_addAttrName (b : Assembly) (text : Text) (location : Span) {safe : Prop} :
    b.Yields 0 safe (b.addAttrName text location) :=
  .of_cargo_eq (b.made_addAttrName ..) (b.cargo_addAttrName ..)

@[simp] theorem cargo_discardAttr (b : Assembly) : b.discardAttr.cargo = b.cargo := by
  unfold discardAttr
  cases h : b.attr <;> simp [cargo, AttrDraft.cargo, h]

@[simp] theorem cargo_finishAttrName (b : Assembly) : b.finishAttrName.cargo = b.cargo := by
  unfold finishAttrName
  split
  · rfl
  · next attr h =>
    split
    · next hn =>
      have hn : attr.name = none := by simp_all
      simp [cargo, AttrDraft.cargo, h, hn]
    · rfl

@[simp] theorem made_finishAttrName (b : Assembly) :
    b.finishAttrName.ledger.made = b.ledger.made := by
  unfold finishAttrName
  split
  · rfl
  · split <;> rfl

theorem yields_finishAttrName (b : Assembly) {safe : Prop} : b.Yields 0 safe b.finishAttrName :=
  .of_cargo_eq b.made_finishAttrName b.cargo_finishAttrName

/-- An attribute that is added takes its name and its value along. -/
theorem yields_addAttr (b : Assembly) (attr : AttrDraft) (value : Option Node) (stop : Nat) :
    b.Yields (attr.cargo + inventory value.toList)
      (attr.discard = false ∧ (attr.name.isSome = true ∨ value = none))
      (b.addAttr attr value stop) := by
  unfold addAttr
  split
  · next hd =>
    exact .of_le _ rfl rfl fun hs => by rw [hs.1] at hd; cases hd
  · split
    · next hn =>
      refine .of_le _ rfl rfl fun hs => ?_
      rcases hs.2 with hs | rfl
      · simp [hn] at hs
      · simp [AttrDraft.cargo, hn]
    · next name hn =>
      refine .of_made (by rw [made_addAmongAttrs]; rfl) ?_
      rw [cargo_addAmongAttrs, cargo_ledger, Node.inventory_attr, AttrDraft.cargo, hn,
        Option.toList_some, inventory_cons, inventory_nil]
      abel

theorem yields_endAttr (b : Assembly) (stop : Nat) :
    b.Yields 0 (∀ a, b.attr = some a → a.discard = false) (b.endAttr stop) := by
  unfold endAttr
  dsimp only
  split
  · exact b.yields_finishAttrName
  · next attr h =>
    have hmoved : b.ledger.Carries True (b.cargo + 0)
        ({ b.finishAttrName with attr := none }.cargo
          + (attr.cargo + inventory (none : Option Node).toList)) b.finishAttrName.ledger := by
      refine .of_eq b.made_finishAttrName ?_
      rw [← b.cargo_finishAttrName]
      simp only [cargo, h, Option.elim_some, Option.elim_none, Option.toList_none, inventory_nil]
      abel
    have hd : (∀ a, b.attr = some a → a.discard = false) → attr.discard = false := by
      intro hs
      unfold finishAttrName at h
      split at h
      · next hn => rw [hn] at h; cases h
      · next a ha =>
        split at h
        · cases h
          exact hs a ha
        · exact hs attr h
    exact (Yields.moved hmoved (yields_addAttr { b.finishAttrName with attr := none } attr none
      stop)).mono fun hs => ⟨trivial, hd hs, Or.inr rfl⟩

theorem yields_closeAttr (b : Assembly) (stop : Nat) :
    b.Yields 0 (∀ a, b.attr = some a → a.discard = false) (b.closeAttr stop) :=
  (b.yields_endAttr stop).enter _ _

theorem yields_giveValue (b : Assembly) (value : Node) (stop : Nat) :
    b.Yields value.inventory (∀ a, b.attr = some a → a.discard = false ∧ a.name.isSome = true)
      (b.giveValue value stop) := by
  unfold giveValue
  split
  · next attr h =>
    have hmoved : b.ledger.Carries True (b.cargo + value.inventory)
        ({ b with attr := none }.cargo + (attr.cargo + inventory (some value).toList))
        b.ledger := by
      refine .of_eq rfl ?_
      simp only [cargo, h, Option.elim_some, Option.elim_none, Option.toList_some, inventory_cons,
        inventory_nil]
      abel
    exact (Yields.moved hmoved (yields_addAttr { b with attr := none } attr (some value)
      stop)).mono fun hs => ⟨trivial, (hs attr h).1, Or.inl (hs attr h).2⟩
  · exact .of_eq rfl (b.cargo_addOut value)

theorem yields_fillSlot (b : Assembly) (value : Node) (stop : Nat) :
    b.Yields value.inventory (∀ a, b.attr = some a → a.discard = false ∧ a.name.isSome = true)
      (b.fillSlot value stop) :=
  (b.yields_giveValue value stop).enter _ _

/-- The value is a node of html, made of what was in it. -/
theorem yields_endValue (b : Assembly) (stop : Nat) :
    b.Yields 0 (∀ a, b.attr = some a → a.discard = false ∧ a.name.isSome = true)
      (b.endValue stop) := by
  unfold endValue
  split
  · exact .refl b
  · next value h =>
    have hmade : b.ledger.Carries True (b.cargo + 0)
        ({ b with ledger := b.ledger.drawnForHtml, value := none }.cargo
          + (Node.attrValue b.ledger.ids.next (Span.upTo value.start stop) value.quotes
            value.children.reverse).inventory) b.ledger.drawnForHtml := by
      refine .of_made rfl ?_
      simp only [cargo, ValueDraft.cargo, h, Option.elim_some, Option.elim_none,
        Node.inventory_attrValue, inventory_reverse]
      abel
    exact (Yields.moved hmade (yields_giveValue
      { b with ledger := b.ledger.drawnForHtml, value := none } _ stop)).mono
        fun hs => ⟨trivial, hs⟩

theorem yields_openValue (b : Assembly) (value : ValueDraft) :
    b.Yields (inventory value.children) (b.value = none) { b with value := some value } := by
  refine .of_le (b.value.elim 0 ValueDraft.cargo) rfl ?_ fun h => by rw [h, Option.elim_none]
  simp only [cargo, ValueDraft.cargo, Option.elim_some]
  abel

theorem yields_openComment (b : Assembly) (start : Nat) :
    b.Yields 0 (b.comment = none) { b with comment := some ⟨start, []⟩ } := by
  refine .of_le (b.comment.elim 0 CommentDraft.cargo) rfl ?_ fun h => by rw [h, Option.elim_none]
  simp only [cargo, CommentDraft.cargo, Option.elim_some, inventory_nil]
  abel

theorem yields_endComment (b : Assembly) (stop : Nat) : b.Yields 0 True (b.endComment stop) := by
  unfold endComment
  split
  · exact .refl b
  · next comment h =>
    refine .of_made rfl ?_
    rw [cargo_addOut]
    simp only [cargo, CommentDraft.cargo, h, Option.elim_some, Option.elim_none,
      Node.inventory_comment, inventory_reverse]
    abel

/-! ## 6. What coherence provides -/

/-- **A tag has a name or nothing to lose, and no attribute is dropped.** -/
theorem Coherent.keeps {b : Assembly} {t : Text} (h : b.Coherent t) :
    (∀ t, b.tag = some t → t.name.isSome = true ∨ t.children = [])
      ∧ ∀ a, b.attr = some a → a.discard = false := by
  obtain ⟨ledger, entry, here, inBranch, out, tag, attr, value, comment, filled, raw, off⟩ := b
  dsimp only [Coherent] at h ⊢
  have holdsTag {tag : Option TagDraft} (ht : entry.HoldsTag tag) :
      ∀ t, tag = some t → t.name.isSome = true ∨ t.children = [] := by
    rintro t rfl
    exact Or.inl ht.2.1
  have holdsSlot {attr : Option AttrDraft} (ha : entry.HoldsSlot attr) :
      ∀ a, attr = some a → a.discard = false := by
    rintro a rfl
    exact ha.1
  cases h with
  | content | comment | inComment | inValue =>
    exact ⟨nofun, nofun⟩
  | tagName _ _ hf => exact ⟨fun _ h => by cases h; exact Or.inr hf.1, nofun⟩
  | inTag ht => exact ⟨holdsTag ht, nofun⟩
  | attrName ht hd => exact ⟨holdsTag ht, fun _ h => by cases h; exact hd⟩
  | beforeValue ht ha => exact ⟨holdsTag ht, holdsSlot ha⟩
  | value _ ht ha => exact ⟨holdsTag ht, holdsSlot ha⟩

/-- The name of an attribute is not dropped. -/
theorem Coherent.keeps_names {b : Assembly} {t : Text} (h : b.Coherent t) :
    b.context.discards = false := by
  obtain ⟨ledger, entry, here, inBranch, out, tag, attr, value, comment, filled, raw, off⟩ := b
  dsimp only [Coherent] at h ⊢
  cases h with
  | content _ hh => cases here <;> first | rfl | simp [Context.isContent] at hh
  | _ => rfl

/-- Between attributes none is open. -/
theorem Coherent.attr_eq_none {b : Assembly} {t : Text} (h : b.Coherent t)
    (hb : b.context = .beforeAttrName) : b.attr = none := by
  obtain ⟨ledger, entry, here, inBranch, out, tag, attr, value, comment, filled, raw, off⟩ := b
  dsimp only at hb
  subst hb
  dsimp only [Coherent] at h
  cases h with
  | content _ hh => simp [Context.isContent] at hh
  | inTag => rfl

/-- Before a value and in it the attribute has a name, and before it no value is open. -/
theorem Coherent.slot {b : Assembly} {t : Text} (h : b.Coherent t)
    (hb : b.context = .beforeAttrValue ∨ ∃ quotes, b.context = .attrValue quotes) :
    (∀ a, b.attr = some a → a.discard = false ∧ a.name.isSome = true)
      ∧ (b.context = .beforeAttrValue → b.value = none) := by
  obtain ⟨ledger, entry, here, inBranch, out, tag, attr, value, comment, filled, raw, off⟩ := b
  dsimp only [Coherent] at h hb ⊢
  have holdsSlot {attr : Option AttrDraft} (ha : entry.HoldsSlot attr) :
      ∀ a, attr = some a → a.discard = false ∧ a.name.isSome = true := by
    rintro a rfl
    exact ha
  cases h with
  | beforeValue _ ha => exact ⟨holdsSlot ha, fun _ => rfl⟩
  | value _ _ ha => exact ⟨holdsSlot ha, by rintro ⟨⟩⟩
  | content _ hh => rcases hb with rfl | ⟨_, rfl⟩ <;> simp [Context.isContent] at hh
  | inValue => exact ⟨by rintro _ ⟨⟩, fun _ => rfl⟩
  | _ => rcases hb with hb | ⟨_, hb⟩ <;> cases hb

/-- In a tag name the tag has no children. -/
theorem Coherent.tag_of_tagName {b : Assembly} {t : Text} {part : NamePart} (h : b.Coherent t)
    (hb : b.context = .tagName part) :
    b.attr = none ∧ ∃ tag, b.tag = some tag ∧ tag.Spells part ∧ tag.children = [] := by
  obtain ⟨ledger, entry, here, inBranch, out, tag, attr, value, comment, filled, raw, off⟩ := b
  dsimp only at hb
  subst hb
  dsimp only [Coherent] at h
  cases h with
  | content _ hh => simp [Context.isContent] at hh
  | tagName _ hs hf => exact ⟨rfl, _, rfl, hs, hf.1⟩

/-! ## 7. Reading -/

theorem yields_reportLexeme (b : Assembly) (location : Span) (l : Lexeme) :
    b.Yields 0 True (b.reportLexeme location l) := by
  unfold reportLexeme
  split <;> exact .of_cargo_eq rfl rfl

/-- **No mark doubles a node, and in a coherent assembly none loses one.** -/
theorem yields_apply {b : Assembly} {c : Char} (cs text : Text) {l : Lexeme} {m : Mark}
    (location : Span) (hl : Context.Move b.context c l) (hm : l.mark = some m) :
    b.Yields 0 (b.Coherent (c :: cs)) (b.apply m l.next text location) := by
  obtain ⟨hContent, hInName, hInTag, hBefore, hInValue⟩ := hl.of_mark hm
  cases m <;> simp only [apply]
  case skip =>
    refine Yields.enter ?_ _ _
    split
    · exact .of_cargo_eq rfl b.cargo_discardAttr
    · exact .refl b
  case tagStart close =>
    refine ((b.yields_openTag close location).mono fun h => ?_).enter _ _
    exact (h.closed (hContent (Or.inl ⟨close, rfl⟩))).1
  case tagNameChars => exact (b.yields_addTagName ..).enter _ _
  case tagNameEnd => exact b.yields_finishTagName.enter _ _
  case tagAbort =>
    split
    · refine b.yields_abortTag.mono fun h t ht => ?_
      obtain ⟨part, hb⟩ := hInName rfl
      obtain ⟨_, tag, htag, _, hch⟩ := h.tag_of_tagName hb
      rw [htag] at ht
      cases ht
      exact hch
    · exact Yields.enter (.refl b) _ _
  case tagEnd selfClosing =>
    split
    · exact (b.yields_closeTag ..).mono fun h => h.keeps.1
    · exact .of_cargo_eq rfl (b.cargo_report ..)
  case attrNameStart =>
    have h := (b.yields_openAttr (Span.point location.start) none l.next.discards).mono
      fun h : b.Coherent (c :: cs) => h.attr_eq_none (hInTag rfl)
    exact h.enter _ _
  case attrNameChar => exact (b.yields_addAttrName ..).enter _ _
  case attrNameEnd => exact ((b.yields_endAttr _).mono fun h => h.keeps.2).enter _ _
  case attrEquals => exact b.yields_finishAttrName.enter _ _
  case valueStart quotes =>
    refine ((b.yields_openValue ⟨quotes, location.start, []⟩).mono fun h => ?_).enter _ _
    have hb := hBefore ⟨quotes, rfl⟩
    exact (h.slot (Or.inl hb)).2 hb
  case valueEnd =>
    split
    · exact ((b.yields_endValue _).mono fun h => (h.slot (Or.inr (hInValue rfl))).1).enter _ _
    · split
      · exact Yields.enter (.of_cargo_eq rfl (b.cargo_report ..)) _ _
      · exact .of_cargo_eq (by simp) (by simp)
  case commentStart =>
    refine ((b.yields_openComment location.start).mono fun h => ?_).enter _ _
    exact (h.closed (hContent (Or.inr rfl))).2.2.2
  case commentEnd =>
    split
    · exact ((b.yields_endComment _).mono fun _ => trivial).enter _ _
    · exact .of_cargo_eq (by simp) (by simp)

/-- **A run of text is cut up, and every node stays.** -/
theorem yields_read (b : Assembly) (run : RawRun) (t : Text) :
    b.Yields 0 (b.Coherent t ∧ (b.read run 0 none t).Clean) (b.read run 0 none t) := by
  refine (read_rule (P := fun b' _ t' => b.Yields 0 (b.Coherent t ∧ b'.Clean) b'
    ∧ (b.Coherent t → b'.Clean → b'.Coherent t')) ?_ ?_ ?_ ⟨.refl b, fun h _ => h⟩
    (fun _ h => by cases h)).1
  · intro b' h c cs location offset ⟨hy, hcoh⟩ hm
    refine ⟨?_, fun h hc => Coherent.content_of_clean location offset (hcoh h) hm hc⟩
    refine ((hy.then (b'.yields_reportLexeme ..)).enter _ _).mono ?_
    exact fun hs =>
      ⟨⟨hs.1, (extends_reportLexeme ..).clean ((extends_enter ..).clean hs.2)⟩, trivial⟩
  · intro b' h t' location ⟨hy, hcoh⟩ _ _
    refine ⟨?_, fun hb hc => (hcoh hb ((extends_addText ..).clean hc)).addText h location⟩
    refine (hy.then (.of_cargo_eq (made_addText ..) (cargo_addText ..) : Yields _ 0 True _)).mono ?_
    exact fun hs => ⟨⟨hs.1, (extends_addText ..).clean hs.2⟩, trivial⟩
  · intro b' c cs m location place ⟨hy, hcoh⟩ hm
    refine ⟨?_, fun h hc => Coherent.mark_of_clean location place (hcoh h) hm hc⟩
    have hrep := b'.yields_reportLexeme location (b'.context.lexeme c cs)
    have hmove : Context.Move (b'.reportLexeme location (b'.context.lexeme c cs)).context c
        (b'.context.lexeme c cs) := by
      rw [reportLexeme_context]
      exact Context.lexeme_move ..
    have happly := yields_apply cs ((c :: cs).take (b'.context.lexeme c cs).width) place hmove hm
    refine ((hy.then hrep).then happly).mono fun hs => ?_
    have hc := (extends_apply ..).clean hs.2
    have hc' := (extends_reportLexeme ..).clean hc
    refine ⟨⟨⟨hs.1, hc'⟩, trivial⟩, ?_⟩
    rw [reportLexeme_of_fault_eq_none (fault_eq_none_of_clean (.refl _) hc)]
    exact hcoh hs.1 hc'

theorem yields_readRun (b : Assembly) (run : RawRun) :
    b.Yields 0 (b.Coherent [] ∧ (b.readRun run).Clean) (b.readRun run) := by
  have h := yields_read { b with ledger := b.ledger.countRun } run run.text
  exact Yields.mono h fun hs => ⟨hs.1.restrict_nil, hs.2⟩

theorem yields_readCollected (b : Assembly) (run : Option RawRun) :
    b.Yields 0 (b.Coherent [] ∧ (b.readCollected run).Clean) (b.readCollected run) := by
  cases run with
  | none => exact .refl b
  | some run => exact b.yields_readRun run

theorem yields_collect (b : Assembly) (run : Option RawRun) (text : Text) (location : Span) :
    b.Yields 0 (b.Coherent [] ∧ (b.collect run text location).1.Clean)
      (b.collect run text location).1 := by
  unfold collect
  split
  · exact .refl b
  · split
    · exact .refl b
    · exact b.yields_readRun _

/-! ## 8. Placing -/

theorem cargo_placeContent (b : Assembly) (node : Node) :
    (b.placeContent node).cargo = b.cargo + node.inventory := by
  unfold placeContent
  split
  · exact b.cargo_addContent node
  · rw [cargo_enter]
    exact b.cargo_addContent node

@[simp] theorem made_placeContent (b : Assembly) (node : Node) :
    (b.placeContent node).ledger.made = b.ledger.made := by
  unfold placeContent
  split
  · exact b.made_addContent node
  · rw [made_enter]
    exact b.made_addContent node

theorem yields_placeInTag (b : Assembly) (node : Node) :
    b.Yields node.inventory (b.attr = none) (b.placeInTag node) := by
  unfold placeInTag
  split
  · have h := (b.yields_openAttr node.location (some node) false).enter
      (.attrName .dynamic false b.attrFault?.isSome) node.location.start
    rwa [Option.toList_some, inventory_cons, inventory_nil, add_zero] at h
  · exact .of_eq (b.made_addAmongAttrs node) (b.cargo_addAmongAttrs node)

/-- A computed name is given to a tag that has none. -/
theorem yields_nameTag (b : Assembly) (tag : TagDraft) (node : Node) (h : b.tag = some tag) :
    b.Yields node.inventory (tag.name = none)
      { b with tag := some { tag with name := some node } } := by
  refine .of_le (inventory tag.name.toList) rfl ?_ fun hn => by
    rw [hn, Option.toList_none, inventory_nil]
  simp only [cargo, TagDraft.cargo, h, Option.elim_some, Option.toList_some, inventory_cons,
    inventory_nil]
  abel

theorem yields_placeTagName (b : Assembly) (node : Node) :
    b.Yields node.inventory (∀ t, b.tag = some t → t.name = none ∧ t.children = [])
      (b.placeTagName node) := by
  unfold placeTagName
  split
  · refine Yields.enter ?_ _ _
    split
    · next tag h => exact (b.yields_nameTag tag node h).mono fun hs => (hs tag h).1
    · exact .of_eq rfl (b.cargo_addOut node)
  · have hrep : b.Yields 0 True (b.report node.location .expectedTagName) :=
      .of_cargo_eq rfl (b.cargo_report ..)
    have h := (hrep.then (yields_abortTag _)).trans
      (.of_eq (made_placeContent _ node) (cargo_placeContent _ node) : Yields _ _ True _)
    rw [zero_add] at h
    exact h.mono fun hs => ⟨⟨trivial, fun t ht => (hs t ht).2⟩, trivial⟩

theorem yields_placeBeforeValue (b : Assembly) (node : Node) :
    b.Yields node.inventory (b.value = none
        ∧ ∀ a, b.attr = some a → a.discard = false ∧ a.name.isSome = true)
      (b.placeBeforeValue node) := by
  have bare (location : Span) : b.Yields node.inventory (b.value = none
        ∧ ∀ a, b.attr = some a → a.discard = false ∧ a.name.isSome = true)
      ({ b with value := some ⟨.bare, location.start, [node]⟩ }.enter (.attrValue .bare)
        location.start) := by
    have h := (b.yields_openValue ⟨.bare, location.start, [node]⟩).enter (.attrValue .bare)
      location.start
    rw [inventory_cons, inventory_nil, add_zero] at h
    exact h.mono fun hs => hs.1
  unfold placeBeforeValue
  split
  · exact bare _
  · exact bare _
  · exact (b.yields_fillSlot _ _).mono fun hs => hs.2
  · exact .of_eq (b.made_addAmongAttrs node) (b.cargo_addAmongAttrs node)

@[simp] theorem cargo_reportJoined (b : Assembly) (node : Node) :
    (b.reportJoined node).cargo = b.cargo := by
  unfold reportJoined
  split <;> rfl

@[simp] theorem made_reportJoined (b : Assembly) (node : Node) :
    (b.reportJoined node).ledger.made = b.ledger.made := by
  unfold reportJoined
  split <;> rfl

/-- **A node is placed once.** -/
theorem yields_place (b : Assembly) (node : Node) :
    b.Yields node.inventory (b.Coherent [] ∧ (b.place node).Clean) (b.place node) := by
  unfold place
  split <;> rename_i hb
  case h_7 =>
    refine (b.yields_placeTagName node).mono fun hs t ht => ?_
    obtain ⟨_, tag, htag, hspell, hch⟩ := hs.1.tag_of_tagName hb
    rw [htag] at ht
    cases ht
    exact ⟨hspell.1, hch⟩
  case h_8 part hp =>
    have hfin : b.Yields 0 True ((b.reportJoined node).finishTagName.enter .beforeAttrName
        node.location.start) := .of_cargo_eq (by simp) (by simp)
    refine (hfin.after (yields_placeInTag _ node)).mono fun hs => ⟨trivial, ?_⟩
    simp only [enter_attr, finishTagName_attr, reportJoined_attr]
    exact (hs.1.tag_of_tagName hb).1
  case h_9 =>
    exact (b.yields_placeInTag node).mono fun hs => hs.1.attr_eq_none hb
  case h_10 part sep drop =>
    split
    · next hd =>
      refine .of_le _ rfl rfl fun hs => ?_
      have := hs.1.keeps_names
      rw [hb] at this
      rw [Context.discards] at this
      simp [this] at hd
    · have hrep : b.Yields 0 True (b.reportJoined node) :=
        .of_cargo_eq (b.made_reportJoined node) (b.cargo_reportJoined node)
      refine ((hrep.then (yields_closeAttr _ node.location.start)).after
        (yields_placeInTag _ node)).mono fun hs => ⟨⟨trivial, ?_⟩, closeAttr_attr ..⟩
      rw [reportJoined_attr]
      exact hs.1.keeps.2
  case h_11 =>
    refine (b.yields_placeBeforeValue node).mono fun hs => ?_
    have h := hs.1.slot (Or.inl hb)
    exact ⟨h.2 hb, h.1⟩
  all_goals exact .of_eq (b.made_placeContent node) (b.cargo_placeContent node)

theorem yields_settle (b : Assembly) (location : Span) :
    b.Yields 0 (b.Coherent [] ∧ (b.settle location).Clean) (b.settle location) := by
  unfold settle
  split <;> rename_i hb
  · have hrep : b.Yields 0 True (b.report location .controlFlowInTagName) :=
      .of_cargo_eq rfl (b.cargo_report ..)
    refine (hrep.then (yields_abortTag _)).mono fun hs => ?_
    exact absurd ((extends_abortTag _).clean hs.2) (not_clean_report _ _ _)
  · exact b.yields_finishTagName.enter _ _
  · exact (b.yields_closeAttr _).mono fun hs => hs.1.keeps.2
  · exact .refl b

theorem yields_placeFlow (b : Assembly) (flow : Flow) (exit : Context) :
    b.Yields (Node.flow flow).inventory (b.Coherent []) (b.placeFlow flow exit) := by
  unfold placeFlow
  split
  · next hb =>
    split
    · exact (b.yields_fillSlot _ _).mono fun hs => (hs.slot (Or.inl hb)).1
    · exact Yields.enter (.of_eq (b.made_addAmongAttrs _) (b.cargo_addAmongAttrs _)) _ _
  · exact Yields.enter (.of_eq (b.made_addAmongAttrs _) (b.cargo_addAmongAttrs _)) _ _
  · exact Yields.enter (.of_eq (b.made_addContent _) (b.cargo_addContent _)) _ _

/-! ## 9. Ends -/

theorem yields_settleAtEnd (b : Assembly) : b.Yields 0 (b.Coherent []) b.settleAtEnd := by
  unfold settleAtEnd
  split <;> rename_i hb
  · refine b.yields_abortTag.mono fun hs t ht => ?_
    obtain ⟨_, tag, htag, _, hch⟩ := hs.tag_of_tagName hb
    rw [htag] at ht
    cases ht
    exact hch
  · exact b.yields_finishTagName.enter _ _
  · exact (b.yields_closeAttr _).mono fun hs => hs.keeps.2
  · exact .refl b

/-- Where no name is being read, an attribute that is open has a name. -/
theorem Coherent.slot_of_isSettled {b : Assembly} {t : Text} (h : b.Coherent t)
    (hb : b.context.isSettled = true) :
    ∀ a, b.attr = some a → a.discard = false ∧ a.name.isSome = true := by
  obtain ⟨ledger, entry, here, inBranch, out, tag, attr, value, comment, filled, raw, off⟩ := b
  dsimp only [Coherent] at h hb ⊢
  have holdsSlot {attr : Option AttrDraft} (ha : entry.HoldsSlot attr) :
      ∀ a, attr = some a → a.discard = false ∧ a.name.isSome = true := by
    rintro a rfl
    exact ha
  cases h with
  | tagName | attrName => simp [Context.isSettled] at hb
  | beforeValue _ ha => exact holdsSlot ha
  | value _ _ ha => exact holdsSlot ha
  | _ => rintro _ ⟨⟩

theorem yields_closeValue (b : Assembly) (stop : Nat) :
    b.Yields 0 (∀ a, b.attr = some a → a.discard = false ∧ a.name.isSome = true)
      (b.closeValue stop) := by
  unfold closeValue
  split
  · exact .refl b
  · exact (b.yields_endValue stop).enter _ _

/-- **What is open at the end is finished, not lost.** -/
theorem yields_closeDrafts (b : Assembly) : b.Yields 0 (b.Coherent []) b.closeDrafts := by
  rw [closeDrafts_eq]
  have hsettle := b.yields_settleAtEnd
  have hvalue := yields_closeValue b.settleAtEnd b.offset
  have hattr : (b.settleAtEnd.closeValue b.offset).Yields 0
      (∀ a, (b.settleAtEnd.closeValue b.offset).attr = some a → a.discard = false)
      ((b.settleAtEnd.closeValue b.offset).closeAnyAttr b.offset) := by
    unfold closeAnyAttr
    split
    · exact yields_closeAttr _ _
    · exact .refl _
  have htag := yields_closeTag ((b.settleAtEnd.closeValue b.offset).closeAnyAttr b.offset)
    false b.offset false
  have hcomment (b' : Assembly) : b'.Yields 0 True (b'.closeAnyComment b.offset) := by
    unfold closeAnyComment
    split
    · exact (b'.yields_endComment _).enter _ _
    · exact .refl _
  refine ((((hsettle.then hvalue).then hattr).then htag).then (hcomment _)).mono fun h => ?_
  obtain ⟨hcoh, hset⟩ := h.settleAtEnd
  have hcoh' := hcoh.closeValue b.offset
  have hcoh'' := hcoh'.closeAnyAttr (isSettled_closeValue hset b.offset)
    (closeValue_drafts _ _).1 b.offset
  exact ⟨⟨⟨⟨h, hcoh.slot_of_isSettled hset⟩, hcoh'.keeps.2⟩, hcoh''.keeps.1⟩, trivial⟩

theorem yields_endBranch (b : Assembly) : b.Yields 0 (b.Coherent []) b.endBranch := by
  unfold endBranch
  split
  · exact b.yields_closeDrafts
  · exact b.yields_closeDrafts

theorem closed_endBranch (b : Assembly) : b.endBranch.Closed := by
  unfold endBranch
  split
  · exact b.closed_closeDrafts
  · exact b.closed_closeDrafts

theorem yields_endBlock (b : Assembly) (block : BlockKind) :
    b.Yields 0 (b.Coherent []) (b.endBlock block) := by
  have h := (b.checkContext block).yields_closeDrafts
  unfold endBlock
  unfold checkContext at h ⊢
  split at h <;> rename_i hx
  · rw [if_pos hx]
    exact h
  · rw [if_neg hx]
    exact h

/-- An assembly without drafts holds its finished nodes only. -/
theorem Closed.cargo {b : Assembly} (h : b.Closed) : b.cargo = inventory b.nodes := by
  obtain ⟨ht, ha, hv, hc⟩ := h
  simp [Assembly.cargo, nodes, ht, ha, hv, hc]

/-- The finished nodes are part of what an assembly holds. -/
theorem inventory_nodes_le (b : Assembly) : inventory b.nodes ≤ b.cargo := by
  simp only [nodes, inventory_reverse, cargo, add_assoc]
  exact Multiset.le_add_right _ _

end Assembly

end TemplateMarkup
