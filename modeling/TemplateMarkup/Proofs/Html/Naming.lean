/-
# Names that an assembly draws

An assembly draws a name for every text, every name that is written out, and every node of html, and
moves about nodes that have a name already.  `Draws b extra n b'` says that going from `b` to `b'`
took `n` names, and that all names the second assembly holds are among those the first holds, those
brought in (`extra`), and those taken, each once.  Nodes may be lost on the way: what is dropped
leaves its name unused.

`Few` is the same for a step that takes only a few names, so that their number can be read off the
two sources (`Few.draws_gap`).
-/
import TemplateMarkup.Proofs.Html.Frame
import TemplateMarkup.Proofs.Template.Names

namespace TemplateMarkup

/-! ## 1. The names of nodes, in no order -/

/-- The names in a node. -/
def Node.idBag (n : Node) : Multiset NodeId := ↑n.names

/-- The names in a tree. -/
def idBag (nodes : List Node) : Multiset NodeId := ↑(treeNames nodes)

@[simp] theorem idBag_nil : idBag [] = 0 := rfl

@[simp] theorem idBag_cons (n : Node) (nodes : List Node) :
    idBag (n :: nodes) = n.idBag + idBag nodes := by
  rw [idBag, treeNames, ← Multiset.coe_add]
  rfl

@[simp] theorem idBag_append (l l' : List Node) : idBag (l ++ l') = idBag l + idBag l' := by
  rw [idBag, treeNames_append, ← Multiset.coe_add]
  rfl

@[simp] theorem idBag_reverse (nodes : List Node) : idBag nodes.reverse = idBag nodes := by
  induction nodes with
  | nil => rfl
  | cons n nodes ih => rw [List.reverse_cons, idBag_append, ih, idBag_cons, idBag_cons, idBag_nil,
      add_zero, add_comm]

namespace Node

variable (id : NodeId) (s : Span)

@[simp] theorem idBag_raw (t : Text) : (raw id s t).idBag = {id} := rfl

@[simp] theorem idBag_openTag (name : Node) (children : List Node) (selfClosing : Bool) :
    (openTag id s name children selfClosing).idBag
      = name.idBag + TemplateMarkup.idBag children + {id} := by
  rw [idBag, names, ← Multiset.coe_add, ← Multiset.coe_add]
  rfl

@[simp] theorem idBag_closeTag (name : Node) : (closeTag id s name).idBag = name.idBag + {id} := by
  rw [idBag, names, ← Multiset.coe_add]
  rfl

@[simp] theorem idBag_attr_none (name : Node) :
    (attr id s name none).idBag = name.idBag + {id} := by
  rw [idBag, names, ← Multiset.coe_add]
  rfl

@[simp] theorem idBag_attr_some (name value : Node) :
    (attr id s name (some value)).idBag = name.idBag + value.idBag + {id} := by
  rw [idBag, names, ← Multiset.coe_add, ← Multiset.coe_add]
  rfl

@[simp] theorem idBag_attrValue (quotes : Quotes) (children : List Node) :
    (attrValue id s quotes children).idBag = TemplateMarkup.idBag children + {id} := by
  rw [idBag, names, ← Multiset.coe_add]
  rfl

@[simp] theorem idBag_comment (children : List Node) :
    (comment id s children).idBag = TemplateMarkup.idBag children + {id} := by
  rw [idBag, names, ← Multiset.coe_add]
  rfl

end Node

/-! ## 2. Names taken from a source -/

/-- The next names of a source, in no order. -/
def IdSource.bag (ids : IdSource) (n : Nat) : Multiset NodeId := ↑(ids.taken n)

@[simp] theorem IdSource.bag_zero (ids : IdSource) : ids.bag 0 = 0 := rfl

@[simp] theorem IdSource.bag_one (ids : IdSource) : ids.bag 1 = {ids.next} := rfl

theorem IdSource.bag_add (ids : IdSource) (m n : Nat) :
    ids.bag (m + n) = ids.bag m + (ids.after m).bag n := by
  rw [bag, taken_add, ← Multiset.coe_add]
  rfl

/-- From the first source to the second `n` names were taken, and the names after are among those
before and those taken. -/
structure Drawn (ids : IdSource) (before : Multiset NodeId) (n : Nat) (ids' : IdSource)
    (after : Multiset NodeId) : Prop where
  names : after ≤ before + ids.bag n
  ids : ids' = ids.after n

section

variable {ids ids' ids'' : IdSource} {before before' after after' more : Multiset NodeId} {m n : Nat}

theorem drawn_refl (ids : IdSource) (before : Multiset NodeId) : Drawn ids before 0 ids before :=
  ⟨by rw [IdSource.bag_zero, add_zero], rfl⟩

/-- **One step after another**, with what is brought in between them. -/
theorem Drawn.trans (h : Drawn ids before m ids' after)
    (h' : Drawn ids' (after + more) n ids'' after') :
    Drawn ids (before + more) (m + n) ids'' after' where
  names := by
    calc after' ≤ after + more + ids'.bag n := h'.names
      _ ≤ before + ids.bag m + more + ids'.bag n := by gcongr; exact h.names
      _ = before + more + ids.bag (m + n) := by rw [h.ids, ids.bag_add]; abel
  ids := by rw [h'.ids, h.ids, IdSource.after_add]

/-- Two steps beside one another. -/
theorem Drawn.add (h : Drawn ids before m ids' after) (h' : Drawn ids' before' n ids'' after') :
    Drawn ids (before + before') (m + n) ids'' (after + after') where
  names := by
    calc after + after' ≤ before + ids.bag m + (before' + ids'.bag n) := add_le_add h.names h'.names
      _ = before + before' + ids.bag (m + n) := by rw [h.ids, ids.bag_add]; abel
  ids := by rw [h'.ids, h.ids, IdSource.after_add]

theorem Drawn.mono (h : Drawn ids before m ids' after) (hle : before ≤ before') :
    Drawn ids before' m ids' after where
  names := h.names.trans (by gcongr)
  ids := h.ids

end

/-! ## 3. The names in an assembly -/

/-- The names in a tag. -/
def TagDraft.idBag (t : TagDraft) : Multiset NodeId :=
  TemplateMarkup.idBag t.name.toList + TemplateMarkup.idBag t.children

/-- The names in an attribute. -/
def AttrDraft.idBag (a : AttrDraft) : Multiset NodeId := TemplateMarkup.idBag a.name.toList

/-- The names in a value. -/
def ValueDraft.idBag (v : ValueDraft) : Multiset NodeId := TemplateMarkup.idBag v.children

/-- The names in a comment. -/
def CommentDraft.idBag (c : CommentDraft) : Multiset NodeId := TemplateMarkup.idBag c.children

namespace Assembly

/-- The names that an assembly holds. -/
def idBag (b : Assembly) : Multiset NodeId :=
  TemplateMarkup.idBag b.out + b.tag.elim 0 TagDraft.idBag + b.attr.elim 0 AttrDraft.idBag
    + b.value.elim 0 ValueDraft.idBag + b.comment.elim 0 CommentDraft.idBag

section

variable (b : Assembly)

@[simp] theorem idBag_ledger (l : Ledger) : { b with ledger := l }.idBag = b.idBag := rfl

@[simp] theorem idBag_report (location : Span) (fault : Fault) :
    (b.report location fault).idBag = b.idBag := rfl

@[simp] theorem idBag_enter (next : Context) (offset : Nat) :
    (b.enter next offset).idBag = b.idBag := by
  unfold enter
  split <;> rfl

@[simp] theorem idBag_addOut (node : Node) : (b.addOut node).idBag = b.idBag + node.idBag := by
  simp only [idBag, addOut, idBag_cons]
  abel

/-- A draft is part of what an assembly holds. -/
theorem idBag_of_tag {tag : TagDraft} (h : b.tag = some tag) :
    b.idBag = { b with tag := none }.idBag + tag.idBag := by
  simp only [idBag, h, Option.elim_some, Option.elim_none]
  abel

theorem idBag_of_attr {attr : AttrDraft} (h : b.attr = some attr) :
    b.idBag = { b with attr := none }.idBag + attr.idBag := by
  simp only [idBag, h, Option.elim_some, Option.elim_none]
  abel

theorem idBag_of_value {value : ValueDraft} (h : b.value = some value) :
    b.idBag = { b with value := none }.idBag + value.idBag := by
  simp only [idBag, h, Option.elim_some, Option.elim_none]
  abel

theorem idBag_of_comment {comment : CommentDraft} (h : b.comment = some comment) :
    b.idBag = { b with comment := none }.idBag + comment.idBag := by
  simp only [idBag, h, Option.elim_some, Option.elim_none, add_zero]

/-- Without a draft an assembly holds less. -/
theorem idBag_dropAttr_le : { b with attr := none }.idBag ≤ b.idBag := by
  cases h : b.attr with
  | none => rw [← h]
  | some attr =>
    rw [b.idBag_of_attr h]
    exact Multiset.le_add_right _ _

theorem idBag_dropValue_le : { b with value := none }.idBag ≤ b.idBag := by
  cases h : b.value with
  | none => rw [← h]
  | some value =>
    rw [b.idBag_of_value h]
    exact Multiset.le_add_right _ _

theorem idBag_dropComment_le : { b with comment := none }.idBag ≤ b.idBag := by
  cases h : b.comment with
  | none => rw [← h]
  | some comment =>
    rw [b.idBag_of_comment h]
    exact Multiset.le_add_right _ _

/-- Content is part of what an assembly holds. -/
theorem idBag_setContent (nodes : List Node) :
    (b.setContent nodes).idBag + TemplateMarkup.idBag b.content
      = b.idBag + TemplateMarkup.idBag nodes := by
  unfold setContent content
  split <;> simp only [idBag, ValueDraft.idBag, CommentDraft.idBag, Option.elim_some, *] <;> abel

@[simp] theorem idBag_addContent (node : Node) :
    (b.addContent node).idBag = b.idBag + node.idBag := by
  have h := b.idBag_setContent (node :: b.content)
  rw [idBag_cons, ← add_assoc] at h
  exact add_right_cancel h

@[simp] theorem idBag_addAmongAttrs (node : Node) :
    (b.addAmongAttrs node).idBag = b.idBag + node.idBag := by
  unfold addAmongAttrs
  split
  · next tag h =>
    simp only [idBag, TagDraft.idBag, h, Option.elim_some, idBag_cons]
    abel
  · exact b.idBag_addOut node

end

/-! ## 4. Steps that draw a few names -/

/-- The first assembly becomes the second by bringing in `extra` and drawing `n` names. -/
def Draws (b : Assembly) (extra : Multiset NodeId) (n : Nat) (b' : Assembly) : Prop :=
  Drawn b.ledger.ids (b.idBag + extra) n b'.ledger.ids b'.idBag

/-- The same with no more than `k` names. -/
def Few (b : Assembly) (extra : Multiset NodeId) (k : Nat) (b' : Assembly) : Prop :=
  ∃ n ≤ k, b.Draws extra n b'

section

variable {b b' b'' : Assembly} {extra extra' : Multiset NodeId} {m n k : Nat}

theorem Draws.trans (h : b.Draws extra m b') (h' : b'.Draws extra' n b'') :
    b.Draws (extra + extra') (m + n) b'' := by
  have hboth := Drawn.trans h h'
  rwa [add_assoc] at hboth

/-- **A step that draws a few names draws as many as lie between the two sources.** -/
theorem Few.draws_gap (h : b.Few extra k b') (hk : k < 2 ^ 32) :
    b.Draws extra (b.ledger.ids.gap b'.ledger.ids) b' := by
  obtain ⟨n, hn, hdraws⟩ := h
  have hgap : b.ledger.ids.gap b'.ledger.ids = n := by
    rw [hdraws.ids]
    exact b.ledger.ids.gap_after (by omega)
  rwa [hgap]

theorem few_of_ids (hids : b'.ledger.ids = b.ledger.ids) (h : b'.idBag ≤ b.idBag + extra) :
    b.Few extra k b' :=
  ⟨0, Nat.zero_le k, by rwa [IdSource.bag_zero, add_zero], hids⟩

theorem few_of_rest (hids : b'.ledger.ids = b.ledger.ids.rest)
    (h : b'.idBag ≤ b.idBag + extra + {b.ledger.ids.next}) (hk : 1 ≤ k) : b.Few extra k b' :=
  ⟨1, hk, h, hids⟩

theorem few_refl (b : Assembly) : b.Few 0 k b := few_of_ids rfl (by rw [add_zero])

theorem Few.mono (h : b.Few extra m b') (hk : m ≤ k) : b.Few extra k b' := by
  obtain ⟨n, hn, hdraws⟩ := h
  exact ⟨n, hn.trans hk, hdraws⟩

theorem Few.trans (h : b.Few extra m b') (h' : b'.Few extra' n b'') :
    b.Few (extra + extra') (m + n) b'' := by
  obtain ⟨i, hi, hdraws⟩ := h
  obtain ⟨j, hj, hdraws'⟩ := h'
  exact ⟨i + j, Nat.add_le_add hi hj, hdraws.trans hdraws'⟩

/-- A step that brings in nothing may stand after another. -/
theorem Few.then (h : b.Few extra m b') (h' : b'.Few 0 n b'') : b.Few extra (m + n) b'' := by
  have hboth := h.trans h'
  rwa [add_zero] at hboth

/-- Or before it. -/
theorem Few.after (h : b.Few 0 m b') (h' : b'.Few extra n b'') : b.Few extra (m + n) b'' := by
  have hboth := h.trans h'
  rwa [zero_add] at hboth

/-- What an assembly gives up may be brought in again. -/
theorem Few.of_less {c : Assembly} (h : c.Few extra' k b') (hids : c.ledger.ids = b.ledger.ids)
    (hle : c.idBag + extra' ≤ b.idBag + extra) : b.Few extra k b' := by
  obtain ⟨n, hn, hdraws⟩ := h
  refine ⟨n, hn, ?_⟩
  unfold Draws
  rw [← hids]
  exact Drawn.mono hdraws hle

/-- And so may a node that takes its name on the way. -/
theorem Few.of_rest {c : Assembly} (h : c.Few extra' m b')
    (hids : c.ledger.ids = b.ledger.ids.rest)
    (hle : c.idBag + extra' ≤ b.idBag + extra + {b.ledger.ids.next}) (hk : m + 1 ≤ k) :
    b.Few extra k b' := by
  have hone : Drawn b.ledger.ids (b.idBag + extra) 1 b.ledger.ids.rest (c.idBag + extra') :=
    ⟨hle, rfl⟩
  obtain ⟨n, hn, hdraws⟩ := h
  refine ⟨1 + n, by omega, ?_⟩
  unfold Draws at hdraws ⊢
  rw [hids, ← add_zero (c.idBag + extra')] at hdraws
  have hboth := hone.trans hdraws
  rwa [add_zero] at hboth

/-- A draft that is closed is brought in again. -/
theorem Few.of_tag {tag : TagDraft} (h : b.tag = some tag)
    (hf : Few { b with tag := none } (tag.idBag + extra) k b') : b.Few extra k b' :=
  hf.of_less rfl (by rw [b.idBag_of_tag h, add_assoc])

theorem Few.of_attr {attr : AttrDraft} (h : b.attr = some attr)
    (hf : Few { b with attr := none } (attr.idBag + extra) k b') : b.Few extra k b' :=
  hf.of_less rfl (by rw [b.idBag_of_attr h, add_assoc])

@[simp] theorem ids_enter (b : Assembly) (next : Context) (offset : Nat) :
    (b.enter next offset).ledger.ids = b.ledger.ids := by
  unfold enter
  split <;> rfl

/-- Entering another context draws nothing. -/
theorem Few.enter (h : b.Few extra k b') (next : Context) (offset : Nat) :
    b.Few extra k (b'.enter next offset) := by
  obtain ⟨n, hn, hdraws⟩ := h
  refine ⟨n, hn, ?_⟩
  unfold Draws
  rw [ids_enter, idBag_enter]
  exact hdraws

@[simp] theorem ids_setContent (b : Assembly) (nodes : List Node) :
    (b.setContent nodes).ledger = b.ledger := by
  unfold setContent
  split <;> rfl

@[simp] theorem ledger_addAmongAttrs (b : Assembly) (node : Node) :
    (b.addAmongAttrs node).ledger = b.ledger := by
  unfold addAmongAttrs
  split <;> rfl

end

/-! ## 5. Content, tags, attributes, values -/

section

variable (b : Assembly)

theorem few_addText (text : Text) (location : Span) : b.Few 0 1 (b.addText text location) := by
  unfold addText
  split
  · next id before t nodes h =>
    have hset := b.idBag_setContent (.raw id (before.union location) (t ++ text) :: nodes)
    rw [h, idBag_cons, idBag_cons, Node.idBag_raw, Node.idBag_raw] at hset
    refine few_of_ids ?_ ?_
    · rw [ids_setContent]
    · rw [add_right_cancel hset, add_zero]
  · have hset := idBag_setContent { b with ledger := b.ledger.drawn }
      (.raw b.ledger.ids.next location text :: b.content)
    rw [idBag_cons, Node.idBag_raw, ← add_assoc] at hset
    refine few_of_rest ?_ ?_ (Nat.le_refl 1)
    · rw [ids_setContent]
      rfl
    · rw [add_zero]
      exact (add_right_cancel hset).le

theorem few_addOut (node : Node) : b.Few node.idBag 0 (b.addOut node) :=
  few_of_ids rfl (b.idBag_addOut node).le

theorem few_report (location : Span) (fault : Fault) : b.Few 0 0 (b.report location fault) :=
  few_of_ids rfl (by rw [idBag_report, add_zero])

theorem few_openTag (close : Bool) (location : Span) : b.Few 0 0 (b.openTag close location) := by
  refine few_of_ids rfl ?_
  simp only [idBag, openTag, TagDraft.idBag, Option.elim_some, Option.toList_none, idBag_nil,
    add_zero]
  gcongr
  exact Multiset.le_add_right _ _

theorem few_addTagName (text : Text) (location : Span) :
    b.Few 0 0 (b.addTagName text location) := by
  unfold addTagName
  split
  · exact few_refl b
  · next tag h =>
    refine few_of_ids rfl (le_of_eq ?_)
    simp only [idBag, TagDraft.idBag, h, Option.elim_some, add_zero]

theorem few_finishTagName : b.Few 0 1 b.finishTagName := by
  unfold finishTagName
  split
  · exact few_refl b
  · next tag h =>
    split
    · next hn =>
      have hnone : tag.name = none := by simp_all
      refine few_of_rest rfl (le_of_eq ?_) (Nat.le_refl 1)
      simp only [idBag, TagDraft.idBag, h, hnone, Option.elim_some, Option.toList_none,
        Option.toList_some, idBag_cons, idBag_nil, Node.idBag_raw]
      abel
    · exact few_refl b

/-- Giving up a tag draws a name for the text of its mark. -/
theorem few_abortTag : b.Few 0 1 b.abortTag := by
  unfold abortTag
  split
  · exact few_refl b
  · next tag h =>
    refine Few.of_tag h ?_
    have hback : Few { b with tag := none } 0 0
        ({ b with tag := none }.enter tag.outside tag.start) := (few_refl _).enter _ _
    have htext := hback.then (few_addText ({ b with tag := none }.enter tag.outside tag.start)
      ((if tag.close then ['<', '/'] else ['<']) ++ tag.nameText)
      (Span.upTo tag.start tag.nameLocation.stop))
    dsimp only
    split
    · next name hname =>
      refine (htext.trans (few_addOut _ name)).of_less rfl ?_
      rw [TagDraft.idBag, hname, Option.toList_some, idBag_cons, idBag_nil, zero_add, add_zero,
        add_zero, ← add_assoc]
      exact Multiset.le_add_right _ _
    · exact htext.of_less rfl (by gcongr; exact Multiset.zero_le _)

theorem few_addCloseTag (tag : TagDraft) (name : Node) (location : Span) :
    b.Few (name.idBag + TemplateMarkup.idBag tag.children) 1 (b.addCloseTag tag name location) := by
  unfold addCloseTag
  dsimp only
  refine Few.enter (few_of_rest ?_ (le_of_eq ?_) (Nat.le_refl 1)) _ _
  · split <;> split <;> rfl
  · split <;> split <;>
      simp only [idBag, report, idBag_append, idBag_cons, Node.idBag_closeTag] <;> abel

theorem few_addOpenTag (tag : TagDraft) (name : Node) (location : Span)
    (selfClosing bodyFollows : Bool) :
    b.Few (name.idBag + TemplateMarkup.idBag tag.children) 1
      (b.addOpenTag tag name location selfClosing bodyFollows) := by
  unfold addOpenTag
  refine Few.enter (few_of_rest rfl (le_of_eq ?_) (Nat.le_refl 1)) _ _
  simp only [idBag, idBag_cons, Node.idBag_openTag, idBag_reverse]
  abel

theorem few_closeTag (selfClosing : Bool) (stop : Nat) (bodyFollows : Bool) :
    b.Few 0 1 (b.closeTag selfClosing stop bodyFollows) := by
  unfold closeTag
  split
  · exact few_refl b
  · next tag h =>
    split
    · exact b.few_abortTag
    · next name hname =>
      refine Few.of_tag h ?_
      rw [TagDraft.idBag, hname, Option.toList_some, idBag_cons, idBag_nil, add_zero, add_zero]
      dsimp only
      split
      · exact few_addCloseTag ..
      · exact few_addOpenTag ..

theorem few_reportAttr (location : Span) : b.Few 0 0 (b.reportAttr location) := by
  unfold reportAttr
  split
  · exact few_refl b
  · exact b.few_report location _
  · next tag h =>
    split
    · exact few_refl b
    · refine few_of_ids rfl (le_of_eq ?_)
      simp only [idBag, TagDraft.idBag, report, h, Option.elim_some, add_zero]

theorem few_openAttr (location : Span) (name : Option Node) (discard : Bool) :
    b.Few (TemplateMarkup.idBag name.toList) 0 (b.openAttr location name discard) := by
  have hopen : Few (b.reportAttr location) (TemplateMarkup.idBag name.toList) 0
      (b.openAttr location name discard) := by
    refine few_of_ids rfl ?_
    rw [idBag_of_attr (b.openAttr location name discard) rfl]
    exact add_le_add_left (idBag_dropAttr_le (b.reportAttr location)) _
  exact (b.few_reportAttr location).after hopen

theorem few_addAttrName (text : Text) (location : Span) :
    b.Few 0 0 (b.addAttrName text location) := by
  unfold addAttrName
  split
  · exact few_refl b
  · next attr h =>
    split
    · exact few_refl b
    · refine few_of_ids rfl (le_of_eq ?_)
      simp only [idBag, AttrDraft.idBag, h, Option.elim_some, add_zero]

theorem few_discardAttr : b.Few 0 0 b.discardAttr := by
  unfold discardAttr
  refine few_of_ids rfl (le_of_eq ?_)
  cases h : b.attr <;>
    simp only [idBag, AttrDraft.idBag, h, Option.map_none, Option.map_some, Option.elim_none,
      Option.elim_some, add_zero]

theorem few_finishAttrName : b.Few 0 1 b.finishAttrName := by
  unfold finishAttrName
  split
  · exact few_refl b
  · next attr h =>
    split
    · next hn =>
      have hnone : attr.name = none := by simp_all
      refine few_of_rest rfl (le_of_eq ?_) (Nat.le_refl 1)
      simp only [idBag, AttrDraft.idBag, h, hnone, Option.elim_some, Option.toList_none,
        Option.toList_some, idBag_cons, idBag_nil, Node.idBag_raw]
      abel
    · exact few_refl b

/-- An attribute that is added takes its name and its value along. -/
theorem few_addAttr (attr : AttrDraft) (value : Option Node) (stop : Nat) :
    b.Few (attr.idBag + TemplateMarkup.idBag value.toList) 1 (b.addAttr attr value stop) := by
  unfold addAttr
  split
  · exact few_of_ids rfl (Multiset.le_add_right _ _)
  · split
    · exact few_of_ids rfl (Multiset.le_add_right _ _)
    · next name hname =>
      refine few_of_rest ?_ (le_of_eq ?_) (Nat.le_refl 1)
      · rw [ledger_addAmongAttrs]
        rfl
      · rw [idBag_addAmongAttrs, idBag_ledger, AttrDraft.idBag, hname]
        cases value <;>
          simp only [Option.toList_none, Option.toList_some, idBag_cons, idBag_nil,
            Node.idBag_attr_none, Node.idBag_attr_some] <;> abel

theorem few_endAttr (stop : Nat) : b.Few 0 2 (b.endAttr stop) := by
  unfold endAttr
  dsimp only
  split
  · exact b.few_finishAttrName.mono (by omega)
  · next attr h =>
    have hadd : b.finishAttrName.Few 0 1
        ({ b.finishAttrName with attr := none }.addAttr attr none stop) :=
      Few.of_attr h (few_addAttr _ attr none stop)
    exact b.few_finishAttrName.then hadd

theorem few_closeAttr (stop : Nat) : b.Few 0 2 (b.closeAttr stop) := (b.few_endAttr stop).enter _ _

theorem few_giveValue (value : Node) (stop : Nat) : b.Few value.idBag 1 (b.giveValue value stop) := by
  unfold giveValue
  split
  · next attr h =>
    refine Few.of_attr h ?_
    have hadd := few_addAttr { b with attr := none } attr (some value) stop
    rwa [Option.toList_some, idBag_cons, idBag_nil, add_zero] at hadd
  · exact few_of_ids rfl (b.idBag_addOut value).le

theorem few_fillSlot (value : Node) (stop : Nat) : b.Few value.idBag 1 (b.fillSlot value stop) :=
  (b.few_giveValue value stop).enter _ _

theorem few_endValue (stop : Nat) : b.Few 0 2 (b.endValue stop) := by
  unfold endValue
  split
  · exact few_refl b
  · next value h =>
    refine (few_giveValue _ _ stop).of_rest rfl (le_of_eq ?_) (Nat.le_refl 2)
    simp only [idBag, ValueDraft.idBag, h, Option.elim_some, Option.elim_none,
      Node.idBag_attrValue, idBag_reverse]
    abel

theorem few_closeValue (stop : Nat) : b.Few 0 2 (b.closeValue stop) := by
  unfold closeValue
  split
  · exact few_refl b
  · exact (b.few_endValue stop).enter _ _

theorem few_openValue (value : ValueDraft) :
    b.Few (TemplateMarkup.idBag value.children) 0 { b with value := some value } := by
  refine few_of_ids rfl ?_
  rw [idBag_of_value { b with value := some value } rfl]
  exact add_le_add_left b.idBag_dropValue_le _

theorem few_openComment (start : Nat) : b.Few 0 0 { b with comment := some ⟨start, []⟩ } := by
  refine few_of_ids rfl ?_
  rw [idBag_of_comment { b with comment := some ⟨start, []⟩ } rfl]
  exact add_le_add_left b.idBag_dropComment_le _

theorem few_endComment (stop : Nat) : b.Few 0 1 (b.endComment stop) := by
  unfold endComment
  split
  · exact few_refl b
  · next comment h =>
    refine few_of_rest rfl (le_of_eq ?_) (Nat.le_refl 1)
    simp only [idBag, addOut, CommentDraft.idBag, h, Option.elim_some, Option.elim_none,
      idBag_cons, Node.idBag_comment, idBag_reverse]
    abel

end

/-! ## 6. Reading and placing -/

section

variable (b : Assembly)

theorem few_reportLexeme (location : Span) (l : Lexeme) : b.Few 0 0 (b.reportLexeme location l) := by
  unfold reportLexeme
  split
  · exact few_refl b
  all_goals exact b.few_report location _

theorem few_release (run : RawRun) (held : Option Held) (pos : Nat) :
    b.Few 0 1 (b.release run held pos) := by
  cases held with
  | none => exact few_refl b
  | some held => exact b.few_addText _ _

/-- **A mark draws two names at most.** -/
theorem few_apply (mark : Mark) (next : Context) (text : Text) (location : Span) :
    b.Few 0 2 (b.apply mark next text location) := by
  cases mark with
  | skip =>
    refine Few.enter ?_ _ _
    split
    · exact b.few_discardAttr.mono (by omega)
    · exact few_refl b
  | tagStart close => exact ((b.few_openTag close location).mono (by omega)).enter _ _
  | tagNameChars => exact ((b.few_addTagName text location).mono (by omega)).enter _ _
  | tagNameEnd => exact (b.few_finishTagName.mono (by omega)).enter _ _
  | tagAbort =>
    simp only [apply]
    split
    · exact b.few_abortTag.mono (by omega)
    · exact (few_refl b).enter _ _
  | tagEnd selfClosing =>
    simp only [apply]
    split
    · exact (b.few_closeTag ..).mono (by omega)
    · exact (b.few_report location _).mono (by omega)
  | attrNameStart =>
    exact ((b.few_openAttr (Span.point location.start) none next.discards).mono (by omega)).enter _ _
  | attrNameChar => exact ((b.few_addAttrName text location).mono (by omega)).enter _ _
  | attrNameEnd => exact (b.few_endAttr _).enter _ _
  | attrEquals => exact (b.few_finishAttrName.mono (by omega)).enter _ _
  | valueStart quotes =>
    exact ((b.few_openValue ⟨quotes, location.start, []⟩).mono (by omega)).enter _ _
  | valueEnd =>
    simp only [apply]
    split
    · exact (b.few_endValue _).enter _ _
    · split
      · exact ((b.few_report location _).enter _ _).mono (by omega)
      · exact ((b.few_report location _).then (few_addText _ text location)).mono (by omega)
  | commentStart => exact ((b.few_openComment location.start).mono (by omega)).enter _ _
  | commentEnd =>
    simp only [apply]
    split
    · exact ((b.few_endComment _).mono (by omega)).enter _ _
    · exact ((b.few_report location _).then (few_addText _ text location)).mono (by omega)

theorem few_addContent (node : Node) : b.Few node.idBag 0 (b.addContent node) := by
  refine few_of_ids ?_ (b.idBag_addContent node).le
  unfold addContent
  rw [ids_setContent]

theorem few_addAmongAttrs (node : Node) : b.Few node.idBag 0 (b.addAmongAttrs node) := by
  refine few_of_ids ?_ (b.idBag_addAmongAttrs node).le
  rw [ledger_addAmongAttrs]

theorem few_placeContent (node : Node) : b.Few node.idBag 0 (b.placeContent node) := by
  unfold placeContent
  split
  · exact b.few_addContent node
  · exact (b.few_addContent node).enter _ _

theorem few_placeInTag (node : Node) : b.Few node.idBag 0 (b.placeInTag node) := by
  unfold placeInTag
  split
  · have hopen := b.few_openAttr node.location (some node) false
    rw [Option.toList_some, idBag_cons, idBag_nil, add_zero] at hopen
    exact hopen.enter _ _
  · exact b.few_addAmongAttrs node

theorem few_placeTagName (node : Node) : b.Few node.idBag 1 (b.placeTagName node) := by
  unfold placeTagName
  split
  · refine Few.enter ?_ _ _
    split
    · next tag h =>
      -- a name that is there already is given up
      refine Few.of_tag h (few_of_ids rfl ?_)
      rw [idBag_of_tag { b with tag := some { tag with name := some node } } rfl]
      simp only [TagDraft.idBag, Option.toList_some, idBag_cons, idBag_nil, add_zero]
      rw [add_comm node.idBag, ← add_assoc, ← add_assoc]
      gcongr
      exact Multiset.le_add_left _ _
    · exact few_of_ids rfl (b.idBag_addOut node).le
  · have habort := (b.few_report node.location .expectedTagName).then (few_abortTag _)
    exact habort.after (few_placeContent _ node)

theorem few_placeBeforeValue (node : Node) : b.Few node.idBag 1 (b.placeBeforeValue node) := by
  have hbare (location : Span) : b.Few node.idBag 1
      ({ b with value := some ⟨.bare, location.start, [node]⟩ }.enter (.attrValue .bare)
        location.start) := by
    have hopen := b.few_openValue ⟨.bare, location.start, [node]⟩
    rw [idBag_cons, idBag_nil, add_zero] at hopen
    exact (hopen.enter _ _).mono (by omega)
  unfold placeBeforeValue
  split
  · exact hbare _
  · exact hbare _
  · exact b.few_fillSlot _ _
  · exact (b.few_addAmongAttrs node).mono (by omega)

theorem few_reportJoined (node : Node) : b.Few 0 0 (b.reportJoined node) := by
  unfold reportJoined
  split
  · exact b.few_report _ _
  · exact few_refl b

/-- **Placing a node draws two names at most.** -/
theorem few_place (node : Node) : b.Few node.idBag 2 (b.place node) := by
  unfold place
  split
  case h_7 => exact (b.few_placeTagName node).mono (by omega)
  case h_8 =>
    have hname := ((b.few_reportJoined node).then (few_finishTagName _)).enter .beforeAttrName
      node.location.start
    exact (hname.after (few_placeInTag _ node)).mono (by omega)
  case h_9 => exact (b.few_placeInTag node).mono (by omega)
  case h_10 =>
    split
    · exact few_of_ids rfl (Multiset.le_add_right _ _)
    · have hattr := (b.few_reportJoined node).then (few_closeAttr _ node.location.start)
      exact hattr.after (few_placeInTag _ node)
  case h_11 => exact (b.few_placeBeforeValue node).mono (by omega)
  all_goals exact (b.few_placeContent node).mono (by omega)

theorem few_settle (location : Span) : b.Few 0 2 (b.settle location) := by
  unfold settle
  split
  · exact ((b.few_report location .controlFlowInTagName).then (few_abortTag _)).mono (by omega)
  · exact (b.few_finishTagName.enter _ _).mono (by omega)
  · exact b.few_closeAttr _
  · exact few_refl b

theorem few_placeFlow (flow : Flow) (exit : Context) :
    b.Few (Node.flow flow).idBag 1 (b.placeFlow flow exit) := by
  unfold placeFlow
  split
  · split
    · exact b.few_fillSlot _ _
    · exact ((b.few_addAmongAttrs _).enter _ _).mono (by omega)
  · exact ((b.few_addAmongAttrs _).enter _ _).mono (by omega)
  · exact ((b.few_addContent _).enter _ _).mono (by omega)

/-! ## 7. Ends -/

theorem few_settleAtEnd : b.Few 0 2 b.settleAtEnd := by
  unfold settleAtEnd
  split
  · exact b.few_abortTag.mono (by omega)
  · exact (b.few_finishTagName.enter _ _).mono (by omega)
  · exact b.few_closeAttr _
  · exact few_refl b

/-- **Closing the drafts draws eight names at most.** -/
theorem few_closeDrafts : b.Few 0 8 b.closeDrafts := by
  have hattr (c : Assembly) (stop : Nat) : c.Few 0 2 (c.closeAnyAttr stop) := by
    unfold closeAnyAttr
    split
    · exact c.few_closeAttr stop
    · exact few_refl c
  have hcomment (c : Assembly) (stop : Nat) : c.Few 0 1 (c.closeAnyComment stop) := by
    unfold closeAnyComment
    split
    · exact (c.few_endComment stop).enter _ _
    · exact few_refl c
  rw [closeDrafts_eq]
  have hdrafts := (b.few_settleAtEnd.then (few_closeValue _ b.offset)).then (hattr _ b.offset)
  exact (hdrafts.then (few_closeTag _ false b.offset false)).then (hcomment _ b.offset)

theorem few_endBranch : b.Few 0 8 b.endBranch := by
  unfold endBranch
  split
  · exact b.few_closeDrafts
  · exact b.few_closeDrafts.then (few_report _ _ _)

theorem few_endBlock (block : BlockKind) : b.Few 0 8 (b.endBlock block) := by
  unfold endBlock
  have hcheck : b.Few 0 0 (b.checkContext block) := by
    unfold checkContext
    split
    · exact b.few_report _ _
    · exact few_refl b
  exact hcheck.after (few_closeDrafts _)

/-- The nodes of a block hold some of the names of its assembly. -/
theorem idBag_nodes_le : TemplateMarkup.idBag b.nodes ≤ b.idBag := by
  rw [nodes, idBag_reverse, idBag, add_assoc, add_assoc, add_assoc]
  exact Multiset.le_add_right _ _

end

end Assembly

end TemplateMarkup
