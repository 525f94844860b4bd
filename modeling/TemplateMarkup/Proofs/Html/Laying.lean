/-
# Finished nodes

`lay` adds a finished node to an assembly where the context says: among attributes, or beside
content.  Only the tags of elements whose body is text change the context.

Where no draft is open there is nothing to close at the end (`endBranch_of_closed`,
`endBlock_of_closed`).
-/
import TemplateMarkup.Proofs.Html.Alike
import TemplateMarkup.Proofs.Html.Canonical

namespace TemplateMarkup

namespace Assembly

/-! ## 1. Adding finished nodes -/

/-- Adds a finished node where it belongs, and goes with it into or out of an element whose body is
text. -/
def lay (b : Assembly) (n : Node) : Assembly :=
  { (if b.context = .beforeAttrName then b.addAmongAttrs n else b.addContent n) with
    context := (contextAfter? b.context n).getD b.context }

/-- Adds finished nodes. -/
def layAll (b : Assembly) (nodes : List Node) : Assembly := nodes.foldl lay b

/-- No draft is open that the context is not in. -/
def Ready (b : Assembly) : Prop :=
  match b.context with
  | .pcdata | .rcdata _ => b.Closed
  | .beforeAttrName => b.attrFault? = none ∧ b.attr = none ∧ b.value = none ∧ b.comment = none
  | .comment | .attrValue _ => True
  | _ => False

section Laying

variable {b : Assembly}

@[simp] theorem layAll_nil (b : Assembly) : b.layAll [] = b := rfl

@[simp] theorem layAll_cons (b : Assembly) (n : Node) (nodes : List Node) :
    b.layAll (n :: nodes) = (b.lay n).layAll nodes := rfl

@[simp] theorem lay_context (b : Assembly) (n : Node) :
    (b.lay n).context = (contextAfter? b.context n).getD b.context := rfl

theorem setContent_ledger (b : Assembly) (nodes : List Node) :
    (b.setContent nodes).ledger = b.ledger := by
  unfold setContent
  split <;> rfl

@[simp] theorem lay_ledger (b : Assembly) (n : Node) : (b.lay n).ledger = b.ledger := by
  unfold lay
  dsimp only
  split
  · unfold addAmongAttrs
    split <;> rfl
  · exact setContent_ledger ..

theorem contextAfter?_pcdata (n : Node) :
    contextAfter? .pcdata n = none ∨ ∃ e, contextAfter? .pcdata n = some (.rcdata e) := by
  unfold contextAfter?
  split
  · next name _ _ =>
    cases name.rcdata? with
    | none => exact .inl rfl
    | some e => exact .inr ⟨e, rfl⟩
  · next h => cases h
  · exact .inl rfl

theorem contextAfter?_rcdata (e : Rcdata) (n : Node) :
    contextAfter? (.rcdata e) n = none ∨ contextAfter? (.rcdata e) n = some .pcdata := by
  unfold contextAfter?
  split
  · next h => cases h
  · split
    · exact .inr rfl
    · exact .inl rfl
  · exact .inl rfl

theorem lay_of_closed (h : b.Closed) (n : Node) : b.lay n
    = { b with out := n :: b.out, context := (contextAfter? b.context n).getD b.context } := by
  obtain ⟨l, e, c, i, o, t, a, v, m, f, r, k⟩ := b
  obtain ⟨rfl, rfl, rfl, rfl⟩ := h
  unfold lay addAmongAttrs addContent setContent content addOut
  cases c <;> rfl

theorem lay_of_tag {tag : TagDraft} (hc : b.context = .beforeAttrName) (ht : b.tag = some tag)
    (n : Node) : b.lay n = { b with tag := some { tag with children := n :: tag.children } } := by
  obtain ⟨l, e, c, i, o, t, a, v, m, f, r, k⟩ := b
  dsimp only at hc ht
  subst hc ht
  unfold lay addAmongAttrs
  rw [contextAfter?_eq_none (by simp) (by simp)]
  rfl

theorem lay_of_value {v : ValueDraft} {quotes : Quotes} (hc : b.context = .attrValue quotes)
    (hv : b.value = some v) (n : Node) :
    b.lay n = { b with value := some { v with children := n :: v.children } } := by
  obtain ⟨l, e, c, i, o, t, a, v, m, f, r, k⟩ := b
  dsimp only at hc hv
  subst hc hv
  unfold lay addContent setContent content
  rw [contextAfter?_eq_none (by simp) (by simp)]
  rfl

theorem lay_of_comment {m : CommentDraft} (hc : b.context = .comment) (hm : b.comment = some m)
    (n : Node) : b.lay n = { b with comment := some { m with children := n :: m.children } } := by
  obtain ⟨l, e, c, i, o, t, a, v, m, f, r, k⟩ := b
  dsimp only at hc hm
  subst hc hm
  unfold lay addContent setContent content
  rw [contextAfter?_eq_none (by simp) (by simp)]
  cases v <;> rfl

theorem layAll_of_tag : ∀ (nodes : List Node) {b : Assembly} {tag : TagDraft},
    b.context = .beforeAttrName → b.tag = some tag →
    b.layAll nodes = { b with tag := some { tag with children := nodes.reverse ++ tag.children } }
  | [], b, tag, hc, ht => by
    obtain ⟨l, e, c, i, o, t, a, v, m, f, r, k⟩ := b
    dsimp only at ht
    subst ht
    rfl
  | n :: nodes, b, tag, hc, ht => by
    rw [layAll_cons, lay_of_tag hc ht, layAll_of_tag nodes (by exact hc) rfl]
    simp

theorem layAll_of_value (quotes : Quotes) : ∀ (nodes : List Node) {b : Assembly} {v : ValueDraft},
    b.context = .attrValue quotes → b.value = some v →
    b.layAll nodes = { b with value := some { v with children := nodes.reverse ++ v.children } }
  | [], b, v, hc, hv => by
    obtain ⟨l, e, c, i, o, t, a, v, m, f, r, k⟩ := b
    dsimp only at hv
    subst hv
    rfl
  | n :: nodes, b, v, hc, hv => by
    rw [layAll_cons, lay_of_value hc hv, layAll_of_value quotes nodes (by exact hc) rfl]
    simp

theorem layAll_of_comment : ∀ (nodes : List Node) {b : Assembly} {m : CommentDraft},
    b.context = .comment → b.comment = some m →
    b.layAll nodes = { b with comment := some { m with children := nodes.reverse ++ m.children } }
  | [], b, m, hc, hm => by
    obtain ⟨l, e, c, i, o, t, a, v, m, f, r, k⟩ := b
    dsimp only at hm
    subst hm
    rfl
  | n :: nodes, b, m, hc, hm => by
    rw [layAll_cons, lay_of_comment hc hm, layAll_of_comment nodes (by exact hc) rfl]
    simp

theorem layAll_of_closed : ∀ (nodes : List Node) {b : Assembly} {final : Context}, b.Closed →
    canonicalFrom final b.context nodes = true →
    b.layAll nodes = { b with out := nodes.reverse ++ b.out, context := final }
  | [], b, final, h, hn => by
    rw [canonicalFrom, beq_iff_eq] at hn
    rw [← hn]
    rfl
  | n :: nodes, b, final, h, hn => by
    rw [canonicalFrom, Bool.and_eq_true] at hn
    rw [layAll_cons, lay_of_closed h, layAll_of_closed nodes (by exact h) hn.2]
    simp

theorem Ready.lay (h : b.Ready) (n : Node) : (b.lay n).Ready := by
  have hsame {here : Context} (hc : b.context = here) (ha : contextAfter? here n = none) :
      (b.lay n).context = here := by
    rw [lay_context, hc, ha]
    rfl
  unfold Ready at h
  have hclosed (h : b.Closed) : (b.lay n).Closed := by
    rw [lay_of_closed h]
    exact h
  cases hc : b.context with
  | pcdata =>
    rw [hc] at h
    unfold Ready
    rw [lay_context, hc]
    rcases contextAfter?_pcdata n with hn | ⟨e, hn⟩ <;> rw [hn] <;> exact hclosed h
  | rcdata e =>
    rw [hc] at h
    unfold Ready
    rw [lay_context, hc]
    rcases contextAfter?_rcdata e n with hn | hn <;> rw [hn] <;> exact hclosed h
  | beforeAttrName =>
    rw [hc] at h
    obtain ⟨hf, ha, hv, hm⟩ := h
    unfold Ready
    rw [hsame hc (contextAfter?_eq_none (by simp) (by simp) n)]
    obtain ⟨l, e, c, i, o, t, a, v, m, f, r, k⟩ := b
    dsimp only at hc ha hv hm
    subst hc ha hv hm
    unfold Assembly.lay addAmongAttrs attrFault? at *
    cases t <;> exact ⟨hf, rfl, rfl, rfl⟩
  | comment =>
    unfold Ready
    rw [hsame hc (contextAfter?_eq_none (by simp) (by simp) n)]
    trivial
  | attrValue quotes =>
    unfold Ready
    rw [hsame hc (contextAfter?_eq_none (by simp) (by simp) n)]
    trivial
  | _ =>
    rw [hc] at h
    exact h.elim

theorem lay_tag_eq_none (h : b.tag = none) (n : Node) : (b.lay n).tag = none := by
  obtain ⟨l, e, c, i, o, t, a, v, m, f, r, k⟩ := b
  dsimp only at h
  subst h
  unfold lay addAmongAttrs addContent setContent
  dsimp only
  split
  · rfl
  · split <;> rfl

theorem lay_comment_eq_none (h : b.comment = none) (n : Node) : (b.lay n).comment = none := by
  obtain ⟨l, e, c, i, o, t, a, v, m, f, r, k⟩ := b
  dsimp only at h
  subst h
  unfold lay addAmongAttrs addContent setContent
  dsimp only
  split
  · split <;> rfl
  · split
    · rfl
    · contradiction
    · rfl

end Laying

/-! ## 2. Where text stands -/

section Text

variable {b : Assembly} {n : Node}

theorem lay_of_text (hb : b.context.isText = true)
    (hn : contextAfter? b.context n = none) : b.lay n = b.addContent n := by
  have hne : b.context ≠ .beforeAttrName := by
    intro hc
    rw [hc] at hb
    cases hb
  have hc : (b.addContent n).context = b.context := setContent_context ..
  unfold lay
  rw [if_neg hne, hn, Option.getD_none, ← hc]

theorem Alike.lay {m : Node} (h : n.bare = m.bare) : (b.lay n).Alike (b.lay m) := by
  unfold Assembly.lay
  rw [bareLikeness.after b.context h]
  refine Alike.setContext ?_ _
  split
  · exact (Alike.refl b).addAmongAttrs h
  · exact (Alike.refl b).addContent h

/-- Where text stands, what was added last is what comes last. -/
theorem content_lay (hb : b.context.isText = true) : (b.lay n).content = n :: b.content := by
  obtain ⟨l, e, c, i, o, t, a, v, m, f, r, k⟩ := b
  cases c with
  | pcdata =>
    unfold lay content
    rcases contextAfter?_pcdata n with hn | ⟨e, hn⟩ <;> simp only [hn] <;> rfl
  | rcdata e =>
    unfold lay content
    rcases contextAfter?_rcdata e n with hn | hn <;> simp only [hn] <;> rfl
  | comment =>
    unfold lay content
    simp only [contextAfter?_eq_none (show Context.comment ≠ .pcdata by simp) (by simp)]
    cases v <;> cases m <;> rfl
  | attrValue quotes =>
    unfold lay content
    simp only [contextAfter?_eq_none (show Context.attrValue quotes ≠ .pcdata by simp)
      (by simp)]
    cases v <;> rfl
  | _ => cases hb

/-- Text is added as a node where none stands before it. -/
theorem addText_alike (hb : b.context.isText = true)
    (hlast : ∀ m ∈ b.content.head?, m.rawText? = none) (id : NodeId) (loc : Span) (t : Text) :
    (b.addText t default).Alike (b.lay (.raw id loc t)) := by
  rw [lay_of_text hb rfl, addContent]
  have hdrawn : ({ b with ledger := b.ledger.drawn } : Assembly).Alike b := (alike_ledger rfl).symm
  unfold addText
  split
  · next id' before t' nodes hc =>
    have := hlast (.raw id' before t') (by rw [hc]; rfl)
    cases this
  · exact hdrawn.setContent (by simp [Node.bare])

/-- A print or a call is content where text may stand. -/
theorem place_of_text (hb : b.context.isText = true) (hn : n.isPrinting = true) :
    b.place n = b.lay n := by
  have hnone : contextAfter? b.context n = none := by
    cases n with
    | print id loc e => rfl
    | call id loc callee params => rfl
    | _ => cases hn
  have hcontent : b.placeContent n = b.lay n := by
    rw [lay_of_text hb hnone]
    unfold placeContent
    rw [hnone]
  unfold place
  cases hc : b.context <;> rw [hc] at hb <;> first | exact hcontent | cases hb

/-- Only among attributes one stands among attributes. -/
theorem context_of_lay (h : (b.lay n).context = .beforeAttrName) :
    b.context = .beforeAttrName := by
  rw [lay_context] at h
  cases hc : b.context with
  | pcdata =>
    rw [hc] at h
    rcases contextAfter?_pcdata n with hn | ⟨e, hn⟩ <;> rw [hn] at h <;> cases h
  | rcdata e =>
    rw [hc] at h
    rcases contextAfter?_rcdata e n with hn | hn <;> rw [hn] at h <;> cases h
  | beforeAttrName => rfl
  | _ =>
    rw [hc, contextAfter?_eq_none (by simp) (by simp)] at h
    cases h

/-- Only where text may stand does one come to where it may. -/
theorem isText_of_lay (h : (b.lay n).context.isText = true) : b.context.isText = true := by
  rw [lay_context] at h
  cases hc : b.context with
  | pcdata | rcdata e => rfl
  | comment | attrValue quotes => rfl
  | _ =>
    rw [hc, contextAfter?_eq_none (by simp) (by simp)] at h
    cases h

end Text

/-! ## 3. Ends -/

section Ends

variable {b : Assembly}

/-- Between whole nodes no name is being read. -/
theorem isSettled_of_isBetween {here : Context} (h : here.isBetween = true) :
    here.isSettled = true := by
  cases here <;> first | rfl | cases h

/-- Where no name is being read, none is ended before control flow or at the end. -/
theorem settle_of_isSettled (h : b.context.isSettled = true) (location : Span) :
    b.settle location = b := by
  unfold settle
  cases hc : b.context <;> rw [hc] at h <;> first | rfl | cases h

theorem settleAtEnd_of_isSettled (h : b.context.isSettled = true) : b.settleAtEnd = b := by
  unfold settleAtEnd
  cases hc : b.context <;> rw [hc] at h <;> first | rfl | cases h

/-- Where no draft is open once names are settled, the end has nothing more to close. -/
theorem closeDrafts_of_settleAtEnd (h : b.settleAtEnd.Closed) : b.closeDrafts = b.settleAtEnd := by
  obtain ⟨ht, ha, hv, hm⟩ := h
  rw [closeDrafts_eq]
  simp only [closeValue, hv, closeAnyAttr, ha, closeTag, ht, closeAnyComment, hm,
    Option.isSome_none, Bool.false_eq_true, if_false]

theorem endBranch_of_settleAtEnd (h : b.settleAtEnd.Closed) : b.endBranch = b.settleAtEnd := by
  have hopen : b.settleAtEnd.openConstruct? = none := by
    obtain ⟨ht, ha, hv, hm⟩ := h
    simp only [openConstruct?, ht, ha, hv, hm]
  unfold endBranch
  rw [hopen]
  exact closeDrafts_of_settleAtEnd h

theorem closeDrafts_of_closed (h : b.Closed) (hb : b.context.isSettled = true) :
    b.closeDrafts = b := by
  have hsettle := settleAtEnd_of_isSettled hb
  rw [closeDrafts_of_settleAtEnd (by rwa [hsettle]), hsettle]

theorem endBranch_of_closed (h : b.Closed) (hb : b.context.isSettled = true) : b.endBranch = b := by
  have hsettle := settleAtEnd_of_isSettled hb
  rw [endBranch_of_settleAtEnd (by rwa [hsettle]), hsettle]

theorem endBlock_of_closed (h : b.Closed) (hb : b.context.isSettled = true)
    (he : b.context = b.entry ∨ b.context.isRaw = false) (block : BlockKind) :
    b.endBlock block = b := by
  have hcheck : b.checkContext block = b := by
    unfold checkContext
    rcases he with he | he <;> rw [he] <;> simp
  unfold endBlock
  rw [hcheck]
  exact closeDrafts_of_closed h hb

/-- Before a list is read nothing is open. -/
theorem ready_start (l : Ledger) (here : Context) (h : here.isBetween = true) (inBranch : Bool)
    (offset : Nat) :
    (start l here inBranch offset).Closed ∧ (start l here inBranch offset).Ready := by
  refine ⟨⟨rfl, rfl, rfl, rfl⟩, ?_⟩
  unfold Ready
  cases here with
  | pcdata | rcdata e => exact ⟨rfl, rfl, rfl, rfl⟩
  | beforeAttrName => exact ⟨by simp [attrFault?, start], rfl, rfl, rfl⟩
  | comment | attrValue quotes => trivial
  | _ => cases h

end Ends

end Assembly

/-- Branches that end where they began agree. -/
theorem reconcile_of_same (l : Ledger) (location : Span) (head : FlowHead) (here : Context)
    {exits : Exits} (h : ∀ e ∈ exits, e.2 = here) :
    reconcile l location head here exits = (here, l) := by
  have hloop (l : Ledger) (command : String) :
      reconcileLoop l location command here exits = l := by
    induction exits with
    | nil => rw [reconcileLoop]
    | cons e exits ih =>
      obtain ⟨kind, exit⟩ := e
      obtain rfl : exit = here := h (kind, exit) List.mem_cons_self
      unfold reconcileLoop
      rw [if_pos rfl]
      exact ih fun e' he' => h e' (List.mem_cons_of_mem _ he')
  unfold reconcile
  split
  · rw [hloop]
  · dsimp only
    split
    · rfl
    · next first others hexits =>
      have hall : ∀ c ∈ first :: others, c = here := by
        rw [← hexits]
        intro c hc
        rcases List.mem_append.mp hc with hc | hc
        · obtain ⟨e, he, rfl⟩ := List.mem_map.mp hc
          exact h e he
        · split at hc
          · cases hc
          · exact List.mem_singleton.mp hc
      obtain rfl : first = here := hall first List.mem_cons_self
      unfold reconcileChoice
      rw [List.find?_eq_none.mpr fun c hc => by simp [hall c hc]]

end TemplateMarkup
