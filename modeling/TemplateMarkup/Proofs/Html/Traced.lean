/-
# Tracing a run of text

While nothing is reported the finished nodes are lasting (`Assembly.Traced`): up to where the reader
stands in content, or up to the tag or comment that is open.  In a branch that begins in a tag they
are lasting among attributes.

Marks of attributes only add among attributes (`Assembly.AddsAmong`); those of tags are followed one
by one, because a close tag ends the element that its first characters were read for
(`TagDraft.Closes`).
-/
import TemplateMarkup.Proofs.Html.Durable
import TemplateMarkup.Proofs.Html.Standing

namespace TemplateMarkup

/-! ## 1. The first run -/

/-- The close tag ends the body of the element, by what has been read of its name and what is left
to read. -/
def TagDraft.Closes (tag : TagDraft) (here : Context) (t : Text) (e : Rcdata) : Prop :=
  match here with
  | .tagName .empty => Lexeme.closesElement e ('<' :: '/' :: t) = true
  | .tagName .static =>
    Rcdata.ofName? tag.nameText = some e ∧ ∀ c cs, t = c :: cs → endsName c = true
  | _ => ∃ name, tag.name = some name ∧ name.rcdata? = some e

/-- A close tag has a name. -/
theorem TagDraft.not_closes_nil (tag : TagDraft) {e : Rcdata} :
    ¬ tag.Closes (.tagName .empty) [] e := by
  have : Lexeme.closesElement e ['<', '/'] = false := by cases e <;> decide
  intro h
  exact absurd (show Lexeme.closesElement e ['<', '/'] = true from h) (by rw [this]; simp)

/-- What stands before an open tag is lasting, or will be when the tag is finished. -/
structure TagDraft.Traced (room : Nat) (entry : Context) (out : List Node) (tag : TagDraft)
    (here : Context) (t : Text) : Prop where
  stretch : ∃ rest, Stretch room entry out tag.outside [] rest
    ∧ (here = .tagName .empty → rest = (if tag.close then ['<', '/'] else ['<']) ++ t)
  closes : ∀ e, tag.element = some e → tag.close = true ∧ tag.Closes here t e

/-- Marks of attributes, and of what stands between them. -/
def Mark.isAmongAttrs : Mark → Bool
  | skip | attrNameStart | attrNameChar | attrNameEnd | attrEquals | valueStart _ | valueEnd => true
  | _ => false

/-- Marks of attributes stand among them. -/
theorem Context.Move.isAmongAttrs {here : Context} {c : Char} {l : Lexeme} {m : Mark}
    (h : Context.Move here c l) (hm : l.mark = some m) (hm' : m.isAmongAttrs = true) :
    here.isAmongAttrs = true ∧ l.next.isAmongAttrs = true := by
  cases h <;> cases hm <;> first | exact ⟨rfl, rfl⟩ | cases hm'

/-- A node that stays where it is put between attributes. -/
def Node.StaysAmong (room : Nat) (n : Node) : Prop :=
  n.rawText? = none
    ∧ (n.isDurable = true → n.lastingFrom? room .beforeAttrName = some .beforeAttrName)

theorem Node.staysAmong_attr (room : Nat) (id : NodeId) (location : Span) (name : Node)
    (value : Option Node) : (Node.attr id location name value).StaysAmong room := by
  refine ⟨rfl, fun _ => ?_⟩
  rw [Node.lastingFrom?]
  · rfl
  all_goals simp

theorem durableOut_of_append {nodes out : List Node} (h : durableOut (nodes ++ out) = true) :
    durableOut out = true ∧ ∀ n ∈ nodes, n.isDurable = true := by
  induction nodes with
  | nil => exact ⟨h, fun n hn => absurd hn List.not_mem_nil⟩
  | cons n nodes ih =>
    obtain ⟨h', hn⟩ := durableOut_of_cons h
    obtain ⟨hout, hnodes⟩ := ih h'
    refine ⟨hout, fun m hm => ?_⟩
    rcases List.mem_cons.mp hm with rfl | hm
    · exact hn
    · exact hnodes m hm

/-- Nodes that stay between attributes last there. -/
theorem lastingOut?_append {room : Nat} {nodes out : List Node}
    (h : lastingOut? room .beforeAttrName out = some .beforeAttrName)
    (hnodes : ∀ n ∈ nodes, n.StaysAmong room) (hd : durableOut (nodes ++ out) = true) :
    lastingOut? room .beforeAttrName (nodes ++ out) = some .beforeAttrName := by
  induction nodes with
  | nil => exact h
  | cons n nodes ih =>
    obtain ⟨hraw, hlast⟩ := hnodes n List.mem_cons_self
    obtain ⟨hd', hn⟩ := durableOut_of_cons hd
    have hout := ih (fun m hm => hnodes m (List.mem_cons_of_mem _ hm)) hd'
    exact lastingOut?_cons hout hraw (hlast hn)

namespace Assembly

/-- In a block or branch that begins between tags, the finished nodes are lasting up to where the
reader stands, or up to the tag or comment that is open. -/
def TracedContent (room : Nat) (b : Assembly) (held rest : Text) : Prop :=
  match b.tag, b.comment with
  | some tag, _ => tag.Traced room b.entry b.out b.context rest
  | none, some _ => ∃ rest, Stretch room b.entry b.out .pcdata [] rest
  | none, none => Stretch room b.entry b.out b.context held rest

/-- In a branch that stands for a value, the finished nodes are lasting as long as there is none. -/
def TracedSlot (room : Nat) (b : Assembly) : Prop :=
  b.attr = none ∧
    (b.context = .beforeAttrValue
        ∧ (durableOut b.out = true → lastingOut? room .beforeAttrName b.out = some .beforeAttrName)
      ∨ (∃ quotes, b.context = .attrValue quotes)
      ∨ b.context = .beforeAttrName ∧ b.slotFilled = true)

/-- **The finished nodes are lasting** if they are durable, as far as the pass will visit them
again. -/
structure Traced (room : Nat) (b : Assembly) (held rest : Text) : Prop where
  content : b.entry.isContent = true → durableOut b.out = true → b.TracedContent room held rest
  attrs : b.entry = .beforeAttrName → durableOut b.out = true →
    lastingOut? room .beforeAttrName b.out = some .beforeAttrName
  slot : b.entry = .beforeAttrValue → b.TracedSlot room

theorem traced_start (room : Nat) (l : Ledger) (here : Context) (inBranch : Bool) (offset : Nat)
    (rest : Text) : (start l here inBranch offset).Traced room [] rest where
  content := fun he _ => Stretch.start he rest
  attrs := fun _ _ => rfl
  slot := fun he => ⟨rfl, .inl ⟨he, fun _ => rfl⟩⟩

/-- Only what stands among attributes is another: more stands in the open tag, or among the finished
nodes if no tag is open. -/
structure AddsAmong (room : Nat) (b b' : Assembly) : Prop where
  entry : b'.entry = b.entry
  comment : b'.comment = b.comment
  inTag : ∀ tag, b.tag = some tag → b'.out = b.out ∧ ∃ tag', b'.tag = some tag'
    ∧ tag'.element = tag.element ∧ tag'.close = tag.close ∧ tag'.name = tag.name
  outside : b.tag = none → b'.tag = none
    ∧ ∃ nodes, b'.out = nodes ++ b.out ∧ ∀ n ∈ nodes, n.StaysAmong room

section AddsAmong

variable {room : Nat} {b b' b'' : Assembly}

/-- Nothing there is another. -/
theorem addsAmong_of_same (he : b'.entry = b.entry) (hm : b'.comment = b.comment)
    (ht : b'.tag = b.tag) (ho : b'.out = b.out) : b.AddsAmong room b' where
  entry := he
  comment := hm
  inTag := fun tag h => ⟨ho, tag, ht.trans h, rfl, rfl, rfl⟩
  outside := fun h => ⟨ht.trans h, [], ho, fun _ hn => absurd hn List.not_mem_nil⟩

theorem AddsAmong.trans (h : b.AddsAmong room b') (h' : b'.AddsAmong room b'') :
    b.AddsAmong room b'' where
  entry := h'.entry.trans h.entry
  comment := h'.comment.trans h.comment
  inTag := fun tag ht => by
    obtain ⟨hout, tag', ht', h1, h2, h3⟩ := h.inTag tag ht
    obtain ⟨hout', tag'', ht'', h1', h2', h3'⟩ := h'.inTag tag' ht'
    exact ⟨hout'.trans hout, tag'', ht'', h1'.trans h1, h2'.trans h2, h3'.trans h3⟩
  outside := fun ht => by
    obtain ⟨ht', nodes, hout, hnodes⟩ := h.outside ht
    obtain ⟨ht'', nodes', hout', hnodes'⟩ := h'.outside ht'
    refine ⟨ht'', nodes' ++ nodes, by rw [hout', hout, List.append_assoc], fun n hn => ?_⟩
    rcases List.mem_append.mp hn with hn | hn
    · exact hnodes' n hn
    · exact hnodes n hn

/-- Where it begins, only what stands among attributes matters. -/
theorem AddsAmong.congr (h : b.AddsAmong room b') {x : Assembly} (he : b.entry = x.entry)
    (hm : b.comment = x.comment) (ht : b.tag = x.tag) (ho : b.out = x.out) : x.AddsAmong room b' :=
  (addsAmong_of_same he hm ht ho).trans h

/-- One more node among the attributes. -/
theorem addsAmong_addAmongAttrs (b : Assembly) {node : Node} (hn : node.StaysAmong room) :
    b.AddsAmong room (b.addAmongAttrs node) := by
  unfold addAmongAttrs
  split
  · next tag ht =>
    refine ⟨rfl, rfl, fun tag' ht' => ⟨rfl, ?_⟩, fun hnone => absurd (ht.symm.trans hnone) nofun⟩
    obtain rfl : tag = tag' := Option.some.inj (ht.symm.trans ht')
    exact ⟨_, rfl, rfl, rfl, rfl⟩
  · next ht =>
    refine ⟨rfl, rfl, fun tag' ht' => absurd (ht.symm.trans ht') nofun, fun hnone => ⟨hnone, [node],
      rfl, fun m hm => ?_⟩⟩
    rw [List.mem_singleton.mp hm]
    exact hn

theorem addsAmong_addAttr (b : Assembly) (attr : AttrDraft) (value : Option Node) (stop : Nat) :
    b.AddsAmong room (b.addAttr attr value stop) := by
  have hsame : b.AddsAmong room b := addsAmong_of_same rfl rfl rfl rfl
  unfold addAttr
  split
  · exact hsame
  split
  · exact hsame
  · next name hname =>
    exact (addsAmong_addAmongAttrs _ (Node.staysAmong_attr ..)).congr rfl rfl rfl rfl

theorem addsAmong_enter (b : Assembly) (next : Context) (offset : Nat) :
    b.AddsAmong room (b.enter next offset) :=
  addsAmong_of_same (enter_entry ..) (enter_comment ..) (enter_tag ..) (enter_out ..)

theorem addsAmong_finishAttrName (b : Assembly) : b.AddsAmong room b.finishAttrName := by
  unfold finishAttrName
  split
  · exact addsAmong_of_same rfl rfl rfl rfl
  · split <;> exact addsAmong_of_same rfl rfl rfl rfl

theorem addsAmong_endAttr (b : Assembly) (stop : Nat) : b.AddsAmong room (b.endAttr stop) := by
  unfold endAttr
  dsimp only
  refine (addsAmong_finishAttrName b).trans ?_
  split
  · exact addsAmong_of_same rfl rfl rfl rfl
  · exact (addsAmong_addAttr _ _ _ _).congr rfl rfl rfl rfl

theorem addsAmong_closeAttr (b : Assembly) (stop : Nat) : b.AddsAmong room (b.closeAttr stop) :=
  (addsAmong_endAttr ..).trans (addsAmong_enter ..)

theorem addsAmong_openAttr (b : Assembly) (location : Span) (name : Option Node) (discard : Bool) :
    b.AddsAmong room (b.openAttr location name discard) := by
  unfold openAttr reportAttr
  split
  · exact addsAmong_of_same rfl rfl rfl rfl
  · exact addsAmong_of_same rfl rfl rfl rfl
  · next fault tag _ ht =>
    split
    · exact addsAmong_of_same rfl rfl rfl rfl
    · refine ⟨rfl, rfl, fun tag' ht' => ⟨rfl, ?_⟩, fun hnone => absurd (ht.symm.trans hnone) nofun⟩
      obtain rfl : tag = tag' := Option.some.inj (ht.symm.trans ht')
      exact ⟨_, rfl, rfl, rfl, rfl⟩

/-- A value goes to the attribute that waits for it. -/
theorem addsAmong_giveValue (b : Assembly) (value : Node) (stop : Nat) (h : b.attr.isSome = true) :
    b.AddsAmong room (b.giveValue value stop) := by
  obtain ⟨attr, hattr⟩ := Option.isSome_iff_exists.mp h
  unfold giveValue
  rw [hattr]
  exact (addsAmong_addAttr _ _ _ _).congr rfl rfl rfl rfl

theorem addsAmong_endValue (b : Assembly) (stop : Nat) (h : b.attr.isSome = true) :
    b.AddsAmong room (b.endValue stop) := by
  unfold endValue
  split
  · exact addsAmong_of_same rfl rfl rfl rfl
  · next value _ =>
    refine (addsAmong_giveValue _ _ _ ?_).congr rfl rfl rfl rfl
    exact h

/-- **A mark of an attribute adds among attributes**, if a value that ends belongs to an attribute. -/
theorem addsAmong_apply {m : Mark} (next : Context) (text : Text) (location : Span)
    (hm : m.isAmongAttrs = true)
    (hv : m = .valueEnd → b.value.isSome = true ∧ b.attr.isSome = true) :
    b.AddsAmong room (b.apply m next text location) := by
  cases m with
  | skip =>
    refine AddsAmong.trans ?_ (addsAmong_enter ..)
    split
    · exact addsAmong_of_same rfl rfl rfl rfl
    · exact addsAmong_of_same rfl rfl rfl rfl
  | attrNameStart => exact (addsAmong_openAttr ..).trans (addsAmong_enter ..)
  | attrNameChar =>
    refine AddsAmong.trans ?_ (addsAmong_enter ..)
    unfold addAttrName
    split
    · exact addsAmong_of_same rfl rfl rfl rfl
    · split
      · exact addsAmong_of_same rfl rfl rfl rfl
      · exact addsAmong_of_same rfl rfl rfl rfl
  | attrNameEnd => exact (addsAmong_endAttr ..).trans (addsAmong_enter ..)
  | attrEquals => exact (addsAmong_finishAttrName _).trans (addsAmong_enter ..)
  | valueStart quotes =>
    exact (addsAmong_enter _ next location.start).congr rfl rfl rfl rfl
  | valueEnd =>
    obtain ⟨value, hvalue⟩ := Option.isSome_iff_exists.mp (hv rfl).1
    unfold apply
    simp only [hvalue]
    exact (addsAmong_endValue _ _ (hv rfl).2).trans (addsAmong_enter ..)
  | _ => cases hm

end AddsAmong

/-! ## 2. Where the reader stands -/

section Coherent

variable {b : Assembly} {t : Text}

/-- What is open in a block or branch that begins between tags. -/
theorem Coherent.cases_of_isContent (h : b.Coherent t) (he : b.entry.isContent = true) :
    (b.context.isContent = true ∧ b.Closed)
      ∨ (b.context = .comment ∧ b.tag = none ∧ b.comment.isSome = true)
      ∨ (∃ part tag, b.context = .tagName part ∧ b.tag = some tag ∧ tag.Spells part)
      ∨ b.context.isAmongAttrs = true
        ∧ ∃ tag, b.tag = some tag ∧ tag.name.isSome = true ∧ tag.warned = false := by
  obtain ⟨ledger, entry, here, inBranch, out, tag, attr, value, comment, filled, raw, off⟩ := b
  dsimp only [Coherent] at h he
  have hold {tag : Option TagDraft} (ht : entry.HoldsTag tag) :
      ∃ tag', tag = some tag' ∧ tag'.name.isSome = true ∧ tag'.warned = false := by
    cases tag with
    | none => cases entry <;> first | (cases he; done) | cases ht
    | some tag => exact ⟨tag, rfl, ht.2⟩
  cases h with
  | content _ hh => exact .inl ⟨hh, rfl, rfl, rfl, rfl⟩
  | comment => exact .inr (.inl ⟨rfl, rfl, rfl⟩)
  | inComment he' => rw [he'] at he; cases he
  | tagName _ hs _ => exact .inr (.inr (.inl ⟨_, _, rfl, rfl, hs⟩))
  | inTag ht => exact .inr (.inr (.inr ⟨rfl, hold ht⟩))
  | attrName ht => exact .inr (.inr (.inr ⟨rfl, hold ht⟩))
  | beforeValue ht => exact .inr (.inr (.inr ⟨rfl, hold ht⟩))
  | value draft ht => exact .inr (.inr (.inr ⟨rfl, hold ht⟩))
  | inValue he' => rw [he'] at he; cases he

/-- A branch that begins in a tag stands among attributes, and opens none. -/
theorem Coherent.of_isInTag (h : b.Coherent t) (he : b.entry.isInTag = true) :
    b.context.isAmongAttrs = true ∧ b.tag = none ∧ b.comment = none := by
  obtain ⟨ledger, entry, here, inBranch, out, tag, attr, value, comment, filled, raw, off⟩ := b
  dsimp only [Coherent] at h he
  have hnot : entry.isContent = false := by cases entry <;> first | rfl | cases he
  have hold {tag : Option TagDraft} (ht : entry.HoldsTag tag) : tag = none := by
    cases tag with
    | none => rfl
    | some tag => rw [ht.1] at hnot; cases hnot
  cases h with
  | content he' | comment he' | tagName he' => rw [he'] at hnot; cases hnot
  | inComment he' | inValue he' => rw [he'] at he; cases he
  | inTag ht | attrName ht | beforeValue ht | value draft ht => exact ⟨rfl, hold ht, rfl⟩

/-- Between tags no construct is open. -/
theorem Coherent.of_content (h : b.Coherent t) (hb : b.context.isContent = true) :
    b.entry.isContent = true ∧ b.Closed := by
  obtain ⟨ledger, entry, here, inBranch, out, tag, attr, value, comment, filled, raw, off⟩ := b
  dsimp only [Coherent] at h hb
  cases h with
  | content he _ => exact ⟨he, rfl, rfl, rfl, rfl⟩
  | _ => cases hb

theorem Coherent.of_tagName {part : NamePart} (h : b.Coherent t) (hb : b.context = .tagName part) :
    b.entry.isContent = true ∧ ∃ tag, b.tag = some tag ∧ tag.Spells part := by
  obtain ⟨ledger, entry, here, inBranch, out, tag, attr, value, comment, filled, raw, off⟩ := b
  dsimp only at hb
  subst hb
  dsimp only [Coherent] at h
  cases h with
  | content _ hh => cases hh
  | tagName he hs _ => exact ⟨he, _, rfl, hs⟩

/-- Outside a slot, a value that is open belongs to an attribute. -/
theorem Coherent.of_value {quotes : Quotes} (h : b.Coherent t)
    (hb : b.context = .attrValue quotes) :
    b.entry = .attrValue quotes
      ∨ b.value.isSome = true ∧ (b.entry ≠ .beforeAttrValue → b.attr.isSome = true) := by
  obtain ⟨ledger, entry, here, inBranch, out, tag, attr, value, comment, filled, raw, off⟩ := b
  dsimp only at hb
  subst hb
  dsimp only [Coherent] at h
  cases h with
  | content _ hh => cases hh
  | inValue he => exact .inl he
  | value draft ht ha =>
    refine .inr ⟨rfl, fun hne => ?_⟩
    cases attr with
    | none => exact absurd ha hne
    | some attr => rfl

end Coherent

/-! ## 3. Tracing -/

section Traced

variable {room : Nat} {b b' : Assembly} {held held' rest rest' t : Text}

/-- **What is added among attributes lasts.** -/
theorem Traced.of_addsAmong (h : b.Traced room held rest) (hcoh : b.Coherent t)
    (he : b.entry ≠ .beforeAttrValue) (ha : b.AddsAmong room b')
    (hb : b.context.isAmongAttrs = true) (hb' : b'.context.isAmongAttrs = true) :
    b'.Traced room held' rest' where
  content := fun he' hd => by
    rw [ha.entry] at he'
    obtain ⟨hc, -⟩ | ⟨hc, -⟩ | ⟨part, tag, hc, -⟩ | ⟨-, tag, ht, -⟩ := hcoh.cases_of_isContent he'
    · cases hx : b.context <;> rw [hx] at hc hb <;> first | (cases hc; done) | cases hb
    · rw [hc] at hb
      cases hb
    · rw [hc] at hb
      cases hb
    obtain ⟨hout, tag', ht', helement, hclose, hname⟩ := ha.inTag tag ht
    rw [hout] at hd
    have hold := h.content he' hd
    unfold TracedContent at hold ⊢
    rw [ht] at hold
    rw [ht', ha.entry, hout]
    obtain ⟨⟨rest, hstretch, -⟩, hcloses⟩ := hold
    refine ⟨⟨rest, ?_, fun hc => ?_⟩, fun e hel => ?_⟩
    · rwa [TagDraft.outside, helement]
    · rw [hc] at hb'
      cases hb'
    · rw [helement] at hel
      obtain ⟨hcl, hcloses⟩ := hcloses e hel
      refine ⟨hclose.trans hcl, ?_⟩
      unfold TagDraft.Closes at hcloses ⊢
      cases hx : b.context <;> rw [hx] at hb hcloses <;> cases hb <;>
        cases hx' : b'.context <;> rw [hx'] at hb' <;> cases hb' <;> rwa [hname]
  attrs := fun he' hd => by
    rw [ha.entry] at he'
    obtain ⟨-, ht, -⟩ := hcoh.of_isInTag (by rw [he']; rfl)
    obtain ⟨-, nodes, hout, hnodes⟩ := ha.outside ht
    rw [hout] at hd ⊢
    exact lastingOut?_append (h.attrs he' (durableOut_of_append hd).1) hnodes hd
  slot := fun he' => absurd (ha.entry.symm.trans he') he

theorem TracedSlot.standing (h : b.TracedSlot room) (he : b.entry = .beforeAttrValue) :
    b.Standing :=
  ⟨he, h.1, h.2.imp_left And.left⟩

/-- While the branch waits, the finished nodes are lasting among attributes. -/
theorem TracedSlot.waiting (h : b.TracedSlot room) (hb : b.context = .beforeAttrValue) :
    durableOut b.out = true → lastingOut? room .beforeAttrName b.out = some .beforeAttrName := by
  obtain ⟨-, ⟨-, hlast⟩ | ⟨quotes, hb'⟩ | ⟨hb', -⟩⟩ := h
  · exact hlast
  · cases hb.symm.trans hb'
  · cases hb.symm.trans hb'

theorem Standing.tracedSlot (h : b.Standing)
    (hlast : b.context = .beforeAttrValue → durableOut b.out = true →
      lastingOut? room .beforeAttrName b.out = some .beforeAttrName) : b.TracedSlot room :=
  ⟨h.attr, h.place.imp_left fun hb => ⟨hb, hlast hb⟩⟩

/-- In a branch that stands for a value. -/
theorem traced_of_slot (he : b.entry = .beforeAttrValue) (h : b.TracedSlot room) :
    b.Traced room held rest where
  content := fun he' => by rw [he] at he'; cases he'
  attrs := fun he' => by rw [he] at he'; cases he'
  slot := fun _ => h

/-- In a block or branch that begins between tags. -/
theorem traced_of_content (he : b.entry.isContent = true)
    (h : durableOut b.out = true → b.TracedContent room held rest) : b.Traced room held rest where
  content := fun _ => h
  attrs := fun he' => by rw [he'] at he; cases he
  slot := fun he' => by rw [he'] at he; cases he

end Traced

/-! ## 4. Marks of tags -/

/-- **A tag begins** at its `<` or `</`; in an element whose body is text only the close tag does. -/
theorem lexeme_tagStart {here : Context} {c : Char} {cs : Text} {close : Bool}
    (h : (here.lexeme c cs).mark = some (.tagStart close)) :
    (here = .pcdata ∨ ∃ e, here = .rcdata e ∧ close = true
        ∧ Lexeme.closesElement e (c :: cs) = true)
      ∧ c :: cs = (if close then ['<', '/'] else ['<'])
        ++ (c :: cs).drop (here.lexeme c cs).width
      ∧ (here.lexeme c cs).next = .tagName .empty := by
  have hmove := Context.lexeme_move here c cs
  cases here with
  | pcdata =>
    refine ⟨.inl rfl, ?_⟩
    rw [Context.lexeme, Lexeme.inPcdata] at h ⊢
    split at h <;> rename_i hc
    · rw [if_pos hc]
      subst hc
      unfold Lexeme.atAngle at h ⊢
      split at h
      · cases h
      split at h
      · cases h
      split at h
      · cases h
      split at h
      · cases h
        simp_all [Lexeme.tagStart, Lexeme.marking]
      · cases h
        simp_all [Lexeme.tagStart, Lexeme.marking]
      · split at h
        · cases h
          simp_all [Lexeme.tagStart, Lexeme.marking]
        · cases h
      · split at h
        · cases h
          simp_all [Lexeme.tagStart, Lexeme.marking]
        · cases h
    · cases h
  | rcdata e =>
    rw [Context.lexeme, Lexeme.inRcdata] at h ⊢
    split at h
    · cases h
    · next hseek =>
      cases h
      have hcloses := (Text.of_seek_eq_some hseek).1
      rw [List.drop_zero] at hcloses
      refine ⟨.inr ⟨e, rfl, rfl, hcloses⟩, ?_, rfl⟩
      unfold Lexeme.closesElement at hcloses
      cases hafter : Text.after? ['<', '/'] (c :: cs) with
      | none =>
        rw [hafter] at hcloses
        cases hcloses
      | some rest =>
        rw [Text.eq_append_of_after? hafter]
        rfl
    · cases h
  | _ =>
    generalize Context.lexeme c cs _ = l at h hmove
    cases hmove <;> cases h

/-- More characters of a tag name are all that may be in one. -/
theorem lexeme_tagNameChars {here : Context} {c : Char} {cs : Text}
    (h : (here.lexeme c cs).mark = some .tagNameChars) :
    ∃ part, here = .tagName part ∧ part ≠ .dynamic ∧ (part = .static → endsName c = false)
      ∧ here.lexeme c cs
        = .marking .tagNameChars (.tagName .static) (Text.run inTagName (c :: cs)) := by
  have hmove := Context.lexeme_move here c cs
  cases here with
  | tagName part =>
    refine ⟨part, rfl, ?_⟩
    rw [Context.lexeme] at h ⊢
    cases part with
    | empty =>
      rw [Lexeme.inTagNameAt] at h ⊢
      split at h
      · next hc => exact ⟨by rintro ⟨⟩, by rintro ⟨⟩, by rw [if_pos hc]⟩
      · cases h
    | static =>
      rw [Lexeme.inTagNameAt] at h ⊢
      split at h
      · cases h
      · next hc =>
        split at h
        · next hc' => exact ⟨by rintro ⟨⟩, fun _ => by simpa using hc, by rw [if_neg hc, if_pos hc']⟩
        · cases h
    | dynamic =>
      rw [Lexeme.inTagNameAt] at h
      split at h <;> cases h
  | _ =>
    generalize Context.lexeme c cs _ = l at h hmove
    cases hmove <;> cases h

section Tags

variable {room : Nat} {b : Assembly} {tag : TagDraft} {held held' rest rest' t : Text}

/-- What a tag that is open says about the finished nodes. -/
theorem Traced.openTag (h : b.Traced room held rest) (he : b.entry.isContent = true)
    (hd : durableOut b.out = true) (ht : b.tag = some tag) :
    tag.Traced room b.entry b.out b.context rest := by
  have := h.content he hd
  unfold TracedContent at this
  rwa [ht] at this

theorem traced_of_tag (he : b.entry.isContent = true) (ht : b.tag = some tag)
    (h : durableOut b.out = true → tag.Traced room b.entry b.out b.context rest) :
    b.Traced room held rest := by
  refine traced_of_content he fun hd => ?_
  unfold TracedContent
  rw [ht]
  exact h hd

/-- What content says about the finished nodes. -/
theorem Traced.stretch (h : b.Traced room held rest) (he : b.entry.isContent = true)
    (hd : durableOut b.out = true) (hclosed : b.Closed) :
    Stretch room b.entry b.out b.context held rest := by
  have := h.content he hd
  unfold TracedContent at this
  rwa [hclosed.1, hclosed.2.2.2] at this

theorem traced_of_stretch (he : b.entry.isContent = true) (hclosed : b.Closed)
    (h : durableOut b.out = true → Stretch room b.entry b.out b.context held rest) :
    b.Traced room held rest := by
  refine traced_of_content he fun hd => ?_
  unfold TracedContent
  rw [hclosed.1, hclosed.2.2.2]
  exact h hd

/-- What a comment that is open says about the finished nodes. -/
theorem Traced.openComment (h : b.Traced room held rest) (he : b.entry.isContent = true)
    (hd : durableOut b.out = true) (ht : b.tag = none) (hm : b.comment.isSome = true) :
    ∃ rest, Stretch room b.entry b.out .pcdata [] rest := by
  obtain ⟨draft, hm⟩ := Option.isSome_iff_exists.mp hm
  have := h.content he hd
  unfold TracedContent at this
  rwa [ht, hm] at this

theorem traced_of_comment (he : b.entry.isContent = true) (ht : b.tag = none)
    (hm : b.comment.isSome = true)
    (h : durableOut b.out = true → ∃ rest, Stretch room b.entry b.out .pcdata [] rest) :
    b.Traced room held rest := by
  obtain ⟨draft, hm⟩ := Option.isSome_iff_exists.mp hm
  refine traced_of_content he fun hd => ?_
  unfold TracedContent
  rw [ht, hm]
  exact h hd

/-- A tag begins. -/
theorem Traced.apply_tagStart {c : Char} {cs : Text} {close : Bool} (location : Span)
    (h : b.Traced room [] (c :: cs)) (hcoh : b.Coherent (c :: cs))
    (hm : (b.context.lexeme c cs).mark = some (.tagStart close)) :
    (b.apply (.tagStart close) (b.context.lexeme c cs).next
      ((c :: cs).take (b.context.lexeme c cs).width) location).Traced room []
        ((c :: cs).drop (b.context.lexeme c cs).width) := by
  obtain ⟨hhere, hsplit, hnext⟩ := lexeme_tagStart hm
  have hcontent : b.context.isContent = true := by
    rcases hhere with hhere | ⟨e, hhere, -⟩ <;> rw [hhere] <;> rfl
  obtain ⟨he, hclosed⟩ := hcoh.of_content hcontent
  generalize (c :: cs).drop (b.context.lexeme c cs).width = rest at hsplit ⊢
  generalize htag : b.openTag close location = b'
  have ht : ∃ tag, b'.tag = some tag ∧ tag.close = close ∧ tag.outside = b.context
      ∧ ∀ e, tag.element = some e → b.context = .rcdata e := by
    rw [← htag]
    refine ⟨_, rfl, rfl, ?_, fun e hel => ?_⟩
    · rcases hhere with hhere | ⟨e, hhere, -⟩ <;> rw [hhere] <;> rfl
    · rcases hhere with hhere | ⟨e', hhere, -⟩ <;> rw [hhere] at hel ⊢
      · cases hel
      · cases hel
        rfl
  obtain ⟨tag, ht, hclose, houtside, helement⟩ := ht
  have he' : b'.entry = b.entry := by rw [← htag]; rfl
  have hout : b'.out = b.out := by rw [← htag]; rfl
  simp only [apply, htag]
  refine traced_of_tag (by rw [enter_entry, he']; exact he) ((enter_tag ..).trans ht)
    fun hd => ?_
  rw [enter_out, hout] at hd
  rw [enter_entry, enter_out, enter_context, he', hout, hnext]
  refine ⟨⟨c :: cs, ?_, fun _ => ?_⟩, fun e hel => ?_⟩
  · rw [houtside]
    exact h.stretch he hd hclosed
  · rw [hclose]
    exact hsplit
  · rcases hhere with hhere | ⟨e', hhere, hcl, hcloses⟩
    · cases hhere.symm.trans (helement e hel)
    · cases hhere.symm.trans (helement e hel)
      refine ⟨hclose.trans hcl, ?_⟩
      subst hcl
      rw [hsplit] at hcloses
      exact hcloses

/-- A tag's name goes on. -/
theorem Traced.apply_tagNameChars {c : Char} {cs : Text} (location : Span)
    (h : b.Traced room [] (c :: cs)) (hcoh : b.Coherent (c :: cs))
    (hm : (b.context.lexeme c cs).mark = some .tagNameChars) :
    (b.apply .tagNameChars (b.context.lexeme c cs).next
      ((c :: cs).take (b.context.lexeme c cs).width) location).Traced room []
        ((c :: cs).drop (b.context.lexeme c cs).width) := by
  obtain ⟨part, hhere, hpart, hends, hlexeme⟩ := lexeme_tagNameChars hm
  obtain ⟨he, tag, ht, hspells⟩ := hcoh.of_tagName hhere
  rw [hlexeme]
  dsimp only [Lexeme.marking]
  unfold apply addTagName
  rw [ht]
  refine traced_of_tag (by rw [enter_entry]; exact he) (enter_tag ..) fun hd => ?_
  rw [enter_out] at hd
  obtain ⟨⟨rest, hstretch, -⟩, hcloses⟩ := h.openTag he hd ht
  rw [enter_entry, enter_out, enter_context]
  refine ⟨⟨rest, hstretch, nofun⟩, fun e hel => ?_⟩
  obtain ⟨hcl, hcloses⟩ := hcloses e hel
  refine ⟨hcl, ?_⟩
  rw [hhere] at hcloses
  cases part with
  | dynamic => exact absurd rfl hpart
  | static =>
    have := hcloses.2 c cs rfl
    rw [hends rfl] at this
    cases this
  | empty =>
    obtain ⟨w, rest', hsplit, -, hall, hname, hafter⟩ := Lexeme.exists_of_closesElement hcloses
    have hrun : Text.run inTagName (c :: cs) = w.length := by
      rw [hsplit]
      exact Text.run_append (fun d ds hrest => not_inTagName_of_endsName (hafter d ds hrest)) hall
    rw [hrun, hsplit, List.take_left, List.drop_left]
    refine ⟨?_, hafter⟩
    rw [hspells.2]
    exact hname

/-- **The name of a tag ends**, and the tag closes what its name says. -/
theorem Traced.finishTagName {part : NamePart} (h : b.Traced room held rest) (hcoh : b.Coherent t)
    (hb : b.context = .tagName part) (hp : part ≠ .empty) (offset : Nat) :
    (b.finishTagName.enter .beforeAttrName offset).Traced room held' rest' := by
  obtain ⟨he, tag, ht, hspells⟩ := hcoh.of_tagName hb
  have hfinish : ∃ tag', b.finishTagName.tag = some tag' ∧ tag'.element = tag.element
      ∧ tag'.close = tag.close ∧ (part = .static → ∃ id location,
        tag'.name = some (.raw id location tag.nameText)) ∧ (part = .dynamic → tag'.name = tag.name)
      ∧ b.finishTagName.entry = b.entry ∧ b.finishTagName.out = b.out := by
    unfold Assembly.finishTagName
    rw [ht]
    dsimp only
    cases part with
    | empty => exact absurd rfl hp
    | static =>
      rw [if_pos (by simp [hspells.1, hspells.2])]
      exact ⟨_, rfl, rfl, rfl, fun _ => ⟨_, _, rfl⟩, by rintro ⟨⟩, rfl, rfl⟩
    | dynamic =>
      have hn : tag.name.isNone = false := by simpa [TagDraft.Spells] using hspells
      rw [if_neg (by simp [hn])]
      exact ⟨tag, ht, rfl, rfl, by rintro ⟨⟩, fun _ => rfl, rfl, rfl⟩
  obtain ⟨tag', ht', helement, hclose, hstatic, hdynamic, hentry, hout⟩ := hfinish
  refine traced_of_tag (by rw [enter_entry, hentry]; exact he) ((enter_tag ..).trans ht')
    fun hd => ?_
  rw [enter_out, hout] at hd
  obtain ⟨⟨rest, hstretch, -⟩, hcloses⟩ := h.openTag he hd ht
  rw [enter_entry, enter_out, enter_context, hentry, hout]
  refine ⟨⟨rest, by rwa [TagDraft.outside, helement], by rintro ⟨⟩⟩, fun e hel => ?_⟩
  rw [helement] at hel
  obtain ⟨hcl, hcloses⟩ := hcloses e hel
  refine ⟨hclose.trans hcl, ?_⟩
  rw [hb] at hcloses
  cases part with
  | empty => exact absurd rfl hp
  | static =>
    obtain ⟨id, location, hname⟩ := hstatic rfl
    exact ⟨_, hname, hcloses.1⟩
  | dynamic =>
    obtain ⟨name, hname, hrcdata⟩ := hcloses
    exact ⟨name, (hdynamic rfl).trans hname, hrcdata⟩

/-- A close tag that is finished without a report is lasting after what it closes. -/
theorem lasting_addCloseTag {name : Node} {location : Span} (hwarned : tag.warned = false)
    (hstretch : durableOut b.out = true → ∃ rest, Stretch room b.entry b.out tag.outside [] rest)
    (hcloses : durableOut b.out = true → ∀ e, tag.element = some e → name.rcdata? = some e)
    (hc : ({ b with tag := none }.addCloseTag tag name location).Clean) :
    ({ b with tag := none }.addCloseTag tag name location).out
        = .closeTag b.ledger.ids.next location name :: b.out
      ∧ (durableOut (.closeTag b.ledger.ids.next location name :: b.out) = true →
        lastingOut? room b.entry (.closeTag b.ledger.ids.next location name :: b.out)
          = some .pcdata) := by
  -- nothing has been reported, so nothing stood in the close tag, and its element was open
  obtain ⟨hexpected, hempty⟩ : ¬ (name.rcdata?.isSome && tag.element.isNone) = true
      ∧ tag.children = [] := by
    unfold addCloseTag at hc
    have hc := (extends_enter ..).clean hc
    dsimp only at hc
    split at hc <;> rename_i hchildren
    · exact absurd hc (not_clean_report _ _ _)
    · split at hc <;> rename_i hexpected
      · exact absurd hc (not_clean_report _ _ _)
      · exact ⟨hexpected, by simpa [hwarned] using hchildren⟩
  refine ⟨?_, fun hd => ?_⟩
  · unfold addCloseTag
    rw [enter_out, hempty, if_neg hexpected]
    simp
  · obtain ⟨hd', -⟩ := durableOut_of_cons hd
    obtain ⟨rest, hstretch⟩ := hstretch hd'
    cases hel : tag.element with
    | none =>
      have houtside : tag.outside = .pcdata := by rw [TagDraft.outside, hel]
      rw [houtside] at hstretch
      refine lastingOut?_cons (hstretch.lasting (.inr (.inl (by rintro _ ⟨⟩)))) rfl ?_
      rw [Node.lastingFrom?] <;> simp [contextAfter?]
    | some e =>
      have hr := hcloses hd' e hel
      have houtside : tag.outside = .rcdata e := by rw [TagDraft.outside, hel]
      rw [houtside] at hstretch
      refine lastingOut?_cons (hstretch.lasting (.inr (.inr ⟨e, rfl, admits_of_durableOut hd hr⟩)))
        rfl ?_
      rw [Node.lastingFrom?] <;> simp [contextAfter?, hr]

/-- An open tag that is finished is lasting after what comes before it. -/
theorem lasting_addOpenTag {name : Node} {location : Span} {selfClosing bodyFollows : Bool}
    {n : Node} (hn : n = .openTag b.ledger.ids.next location name tag.children.reverse selfClosing)
    (hstretch : durableOut b.out = true → ∃ rest, Stretch room b.entry b.out .pcdata [] rest) :
    ({ b with tag := none }.addOpenTag tag name location selfClosing bodyFollows).out = n :: b.out
      ∧ (durableOut (n :: b.out) = true → lastingOut? room b.entry (n :: b.out)
        = some ((contextAfter? .pcdata n).getD .pcdata))
      ∧ (bodyFollows = true ∨ Assembly.contextAfter? .pcdata n = none →
        ({ b with tag := none }.addOpenTag tag name location selfClosing bodyFollows).context
          = (contextAfter? .pcdata n).getD .pcdata) := by
  refine ⟨?_, fun hd => ?_, fun hbody => ?_⟩
  · unfold addOpenTag
    rw [enter_out, hn]
  · obtain ⟨hd', -⟩ := durableOut_of_cons hd
    obtain ⟨rest, hstretch⟩ := hstretch hd'
    refine lastingOut?_cons (hstretch.lasting (.inr (.inl nofun))) (by rw [hn]; rfl) ?_
    rw [hn, Node.lastingFrom?]
    all_goals simp
  · unfold addOpenTag
    rw [enter_context]
    rw [hn] at hbody ⊢
    unfold contextAfter? at hbody ⊢
    cases selfClosing <;> cases hr : name.rcdata? <;> simp_all

/-- **A tag that ends is lasting**, and what follows is read in the context that a second reader
comes to: with one exception, an element whose body the block leaves out. -/
theorem lasting_closeTag {name : Node} (he : b.entry.isContent = true) (ht : b.tag = some tag)
    (hname : tag.name = some name) (hwarned : tag.warned = false)
    (hb : b.context.isAmongAttrs = true) (h : b.Traced room held rest) (selfClosing : Bool)
    (stop : Nat) (bodyFollows : Bool) (hc : (b.closeTag selfClosing stop bodyFollows).Clean) :
    ∃ n next, (b.closeTag selfClosing stop bodyFollows).out = n :: b.out ∧ n.rawText? = none
      ∧ next.isContent = true
      ∧ (durableOut (n :: b.out) = true → lastingOut? room b.entry (n :: b.out) = some next)
      ∧ (bodyFollows = true ∨ Assembly.contextAfter? .pcdata n = none →
        (b.closeTag selfClosing stop bodyFollows).context = next) := by
  have hstretch (hd : durableOut b.out = true) :
      ∃ rest, Stretch room b.entry b.out tag.outside [] rest := by
    obtain ⟨⟨rest, hstretch, -⟩, -⟩ := h.openTag he hd ht
    exact ⟨rest, hstretch⟩
  have hcloses (hd : durableOut b.out = true) (e : Rcdata) (hel : tag.element = some e) :
      tag.close = true ∧ name.rcdata? = some e := by
    obtain ⟨-, hcloses⟩ := h.openTag he hd ht
    obtain ⟨hcl, hcloses⟩ := hcloses e hel
    have : ∃ name, tag.name = some name ∧ name.rcdata? = some e := by
      unfold TagDraft.Closes at hcloses
      cases hx : b.context <;> rw [hx] at hb hcloses <;> first | exact hcloses | cases hb
    obtain ⟨name', hname', hr⟩ := this
    rw [hname] at hname'
    cases hname'
    exact ⟨hcl, hr⟩
  unfold closeTag at hc ⊢
  rw [ht] at hc ⊢
  dsimp only at hc ⊢
  rw [hname] at hc ⊢
  dsimp only at hc ⊢
  by_cases hclose : tag.close = true
  · rw [if_pos hclose] at hc ⊢
    obtain ⟨hout, hlast⟩ :=
      lasting_addCloseTag hwarned hstretch (fun hd e hel => (hcloses hd e hel).2) hc
    exact ⟨_, .pcdata, hout, rfl, rfl, hlast, fun _ => (addCloseTag_drafts ..).2.1⟩
  · rw [if_neg hclose]
    have hpcdata (hd : durableOut b.out = true) :
        ∃ rest, Stretch room b.entry b.out .pcdata [] rest := by
      have houtside : tag.outside = .pcdata := by
        unfold TagDraft.outside
        cases hel : tag.element with
        | none => rfl
        | some e => exact absurd (hcloses hd e hel).1 hclose
      rw [← houtside]
      exact hstretch hd
    generalize hn : Node.openTag b.ledger.ids.next (Span.upTo tag.start stop) name
      tag.children.reverse selfClosing = n
    obtain ⟨hout, hlast, hnext⟩ := lasting_addOpenTag hn.symm hpcdata
    refine ⟨n, (contextAfter? .pcdata n).getD .pcdata, hout, by rw [← hn]; rfl, ?_, hlast, hnext⟩
    rcases contextAfter?_pcdata n with h | ⟨e, h⟩ <;> rw [h] <;> rfl

end Tags

/-! ## 5. Runs -/

section Marks

variable {room : Nat} {b : Assembly} {held rest t : Text}

/-- A value that ends without a report is open, and belongs to an attribute or is what the branch
stands for. -/
theorem Coherent.of_apply_valueEnd {quotes : Quotes} {next : Context} {text : Text}
    {location : Span} (h : b.Coherent t) (hq : b.context = .attrValue quotes)
    (hc : (b.apply .valueEnd next text location).Clean) :
    b.value.isSome = true ∧ (b.entry ≠ .beforeAttrValue → b.attr.isSome = true) := by
  rcases h.of_value hq with he | h'
  · obtain ⟨ledger, entry, here, inBranch, out, tag, attr, value, comment, filled, raw, off⟩ := b
    dsimp only at hq he
    subst hq
    dsimp only [Coherent] at h
    cases h with
    | content _ hh => cases hh
    | value draft ht ha =>
      refine ⟨rfl, fun hne => ?_⟩
      cases attr with
      | none => exact absurd ha hne
      | some attr => rfl
    | inValue he =>
      simp only [Assembly.apply] at hc
      split at hc
      · exact absurd ((extends_enter ..).clean hc) (not_clean_report _ _ _)
      · exact absurd ((extends_addText ..).clean hc) (not_clean_report _ _ _)
  · exact h'

/-- In a branch that stands for a value a mark goes from waiting for the value to reading it, or
from reading it to having it. -/
theorem TracedSlot.apply {c : Char} {text : Text} {l : Lexeme} {m : Mark} (location : Span)
    (h : b.TracedSlot room) (hcoh : b.Coherent t) (he : b.entry = .beforeAttrValue)
    (hl : Context.Move b.context c l) (hm : l.mark = some m) (hf : l.fault = none)
    (hc : (b.apply m l.next text location).Clean) :
    (b.apply m l.next text location).TracedSlot room := by
  obtain ⟨hstand, hback⟩ := (h.standing he).apply location hcoh hl hm hf hc
  refine hstand.tracedSlot fun hb => ?_
  obtain ⟨hb', -, hout⟩ := hback hb
  rw [hout]
  exact h.waiting hb'

/-- A mark of an attribute adds among attributes, outside a branch that stands for a value. -/
theorem Traced.apply_amongAttrs {c : Char} {cs : Text} {m : Mark} (location : Span)
    (h : b.Traced room [] (c :: cs)) (hcoh : b.Coherent (c :: cs))
    (hslot : b.entry ≠ .beforeAttrValue) (hm : (b.context.lexeme c cs).mark = some m)
    (hamong : m.isAmongAttrs = true)
    (hc : (b.apply m (b.context.lexeme c cs).next ((c :: cs).take (b.context.lexeme c cs).width)
      location).Clean) :
    (b.apply m (b.context.lexeme c cs).next ((c :: cs).take (b.context.lexeme c cs).width)
      location).Traced room [] ((c :: cs).drop (b.context.lexeme c cs).width) := by
  have hmove := Context.lexeme_move b.context c cs
  obtain ⟨hb, hnext⟩ := hmove.isAmongAttrs hm hamong
  have hvalue (hv : m = .valueEnd) : b.value.isSome = true ∧ b.attr.isSome = true := by
    obtain ⟨-, -, -, -, hend⟩ := hmove.of_mark hm
    obtain ⟨quotes, hquotes⟩ := hend hv
    subst hv
    obtain ⟨hvalue, hattr⟩ := hcoh.of_apply_valueEnd hquotes hc
    exact ⟨hvalue, hattr hslot⟩
  refine h.of_addsAmong hcoh hslot (addsAmong_apply _ _ _ hamong hvalue) hb ?_
  cases m with
  | attrNameStart =>
    simp only [Assembly.apply, enter_context]
    cases hx : (b.context.lexeme c cs).next <;> rw [hx] at hnext <;>
      first | rfl | cases hnext
  | valueEnd =>
    obtain ⟨value, hv⟩ := Option.isSome_iff_exists.mp (hvalue rfl).1
    simp only [Assembly.apply, hv, enter_context]
    exact hnext
  | skip | attrNameChar | attrNameEnd | attrEquals | valueStart =>
    simp only [Assembly.apply, enter_context]
    exact hnext
  | _ => cases hamong

/-- The end of a tag leaves the tag. -/
theorem Traced.apply_tagEnd {c : Char} {cs : Text} {selfClosing : Bool} (location : Span)
    (h : b.Traced room [] (c :: cs)) (hcoh : b.Coherent (c :: cs))
    (hm : (b.context.lexeme c cs).mark = some (.tagEnd selfClosing))
    (hf : (b.context.lexeme c cs).fault = none)
    (hc : (b.apply (.tagEnd selfClosing) (b.context.lexeme c cs).next
      ((c :: cs).take (b.context.lexeme c cs).width) location).Clean) :
    (b.apply (.tagEnd selfClosing) (b.context.lexeme c cs).next
      ((c :: cs).take (b.context.lexeme c cs).width) location).Traced room []
        ((c :: cs).drop (b.context.lexeme c cs).width) := by
  have hmove := Context.lexeme_move b.context c cs
  have hcoh' := hcoh.apply location hmove hm hf hc
  have hb : b.context = .beforeAttrName := by
    generalize b.context.lexeme c cs = l at hm hmove
    generalize b.context = here at hmove ⊢
    cases hmove <;> cases hm
    rfl
  cases ht : b.tag with
  | none =>
    simp only [Assembly.apply, ht] at hc
    exact absurd hc (not_clean_report _ _ _)
  | some tag =>
    have hopen : b.entry.isContent = true ∧ tag.name.isSome = true ∧ tag.warned = false := by
      have := hcoh
      unfold Coherent at this
      rw [hb, ht] at this
      generalize b.attr = attr, b.value = value, b.comment = comment at this
      cases this with
      | inTag ht => exact ht
    obtain ⟨he, hname, hwarned⟩ := hopen
    obtain ⟨name, hname⟩ := Option.isSome_iff_exists.mp hname
    simp only [Assembly.apply, ht] at hc hcoh' ⊢
    obtain ⟨n, next, hout, hraw, hcontent, hlast, hnext⟩ := lasting_closeTag he ht hname hwarned
      (by rw [hb]; rfl) h selfClosing location.stop true hc
    have hentry := (extends_closeTag b selfClosing location.stop true).entry
    have hcontext := hnext (.inl rfl)
    have hclosed := (hcoh'.of_content (by rw [hcontext]; exact hcontent)).2
    refine traced_of_stretch (by rw [hentry]; exact he) hclosed fun hd => ?_
    rw [hout] at hd ⊢
    rw [hentry, hcontext]
    exact ⟨n :: b.out, [], next, .inl ⟨rfl, rfl⟩, fun k hk => by
      obtain rfl : n = k := Option.some.inj hk
      exact hraw, hlast hd, hcontent, .done next _⟩

/-- The end of a comment leaves the comment. -/
theorem Traced.apply_commentEnd {c : Char} {cs : Text} (location : Span)
    (h : b.Traced room [] (c :: cs)) (hcoh : b.Coherent (c :: cs))
    (hm : (b.context.lexeme c cs).mark = some .commentEnd)
    (hf : (b.context.lexeme c cs).fault = none)
    (hc : (b.apply .commentEnd (b.context.lexeme c cs).next
      ((c :: cs).take (b.context.lexeme c cs).width) location).Clean) :
    (b.apply .commentEnd (b.context.lexeme c cs).next
      ((c :: cs).take (b.context.lexeme c cs).width) location).Traced room []
        ((c :: cs).drop (b.context.lexeme c cs).width) := by
  have hmove := Context.lexeme_move b.context c cs
  have hcoh' := hcoh.apply location hmove hm hf hc
  have hb : b.context = .comment ∧ (b.context.lexeme c cs).next = .pcdata := by
    generalize b.context.lexeme c cs = l at hm hmove ⊢
    generalize b.context = here at hmove ⊢
    cases hmove <;> cases hm
    exact ⟨rfl, rfl⟩
  obtain ⟨hb, hnext⟩ := hb
  cases hx : b.comment with
  | none =>
    simp only [Assembly.apply, hx] at hc
    exact absurd ((extends_addText ..).clean hc) (not_clean_report _ _ _)
  | some comment =>
    have hopen : b.entry.isContent = true ∧ b.tag = none := by
      have := hcoh
      unfold Coherent at this
      rw [hb, hx] at this
      generalize b.attr = attr, b.value = value, b.tag = tag at this
      cases this with
      | comment he => exact ⟨he, rfl⟩
    obtain ⟨he, ht⟩ := hopen
    obtain ⟨n, hn, hout⟩ : ∃ n, (∃ id location children, n = Node.comment id location children)
        ∧ (b.endComment location.stop).out = n :: b.out := by
      unfold endComment
      rw [hx]
      exact ⟨_, ⟨_, _, _, rfl⟩, rfl⟩
    have hentry := (extends_endComment b location.stop).entry
    simp only [Assembly.apply, hx] at hcoh' ⊢
    have hclosed := (hcoh'.of_content (by rw [enter_context, hnext]; rfl)).2
    refine traced_of_stretch (by rw [enter_entry, hentry]; exact he) hclosed fun hd => ?_
    rw [enter_out, hout] at hd ⊢
    rw [enter_entry, enter_context, hentry, hnext]
    obtain ⟨hd', -⟩ := durableOut_of_cons hd
    obtain ⟨rest, hstretch⟩ := h.openComment he hd' ht (by rw [hx]; rfl)
    obtain ⟨id, loc, children, rfl⟩ := hn
    refine Stretch.push (hstretch.lasting (.inr (.inl (by rintro _ ⟨⟩)))) rfl ?_ rfl _
    rw [Node.lastingFrom?] <;> simp [contextAfter?]

/-- **A mark that reports nothing leaves lasting nodes.** -/
theorem Traced.apply {c : Char} {cs : Text} {m : Mark} (location : Span)
    (h : b.Traced room [] (c :: cs)) (hcoh : b.Coherent (c :: cs))
    (hm : (b.context.lexeme c cs).mark = some m) (hf : (b.context.lexeme c cs).fault = none)
    (hc : (b.apply m (b.context.lexeme c cs).next ((c :: cs).take (b.context.lexeme c cs).width)
      location).Clean) :
    (b.apply m (b.context.lexeme c cs).next ((c :: cs).take (b.context.lexeme c cs).width)
      location).Traced room [] ((c :: cs).drop (b.context.lexeme c cs).width) := by
  have hmove := Context.lexeme_move b.context c cs
  by_cases hslot : b.entry = .beforeAttrValue
  · refine traced_of_slot ((extends_apply ..).entry.trans hslot) ?_
    exact (h.slot hslot).apply location hcoh hslot hmove hm hf hc
  by_cases hamong : m.isAmongAttrs = true
  · exact h.apply_amongAttrs location hcoh hslot hm hamong hc
  cases m with
  | tagStart close => exact h.apply_tagStart location hcoh hm
  | tagNameChars => exact h.apply_tagNameChars location hcoh hm
  | tagNameEnd =>
    obtain ⟨part, hb, hp, hnext⟩ : ∃ part, b.context = .tagName part ∧ part ≠ .empty
        ∧ (b.context.lexeme c cs).next = .beforeAttrName := by
      generalize b.context.lexeme c cs = l at hm hf hmove ⊢
      generalize b.context = here at hmove ⊢
      cases hmove <;> cases hm
      case nameEnd part hp => exact ⟨part, rfl, hp, rfl⟩
      case nameGlued => cases hf
    simp only [Assembly.apply, hnext]
    exact h.finishTagName hcoh hb hp _
  | tagAbort =>
    exfalso
    generalize b.context.lexeme c cs = l at hm hf hmove
    generalize b.context = here at hmove
    cases hmove <;> cases hm
    cases hf
  | tagEnd selfClosing => exact h.apply_tagEnd location hcoh hm hf hc
  | commentStart =>
    have hb : b.context = .pcdata := by
      generalize b.context.lexeme c cs = l at hm hmove
      generalize b.context = here at hmove ⊢
      cases hmove <;> cases hm
      rfl
    obtain ⟨he, hclosed⟩ := hcoh.of_content (by rw [hb]; rfl)
    simp only [Assembly.apply]
    refine traced_of_comment (by rw [enter_entry]; exact he) ((enter_tag ..).trans hclosed.1)
      (by rw [enter_comment]; rfl) fun hd => ?_
    rw [enter_out] at hd
    rw [enter_entry, enter_out, ← hb]
    exact ⟨_, h.stretch he hd hclosed⟩
  | commentEnd => exact h.apply_commentEnd location hcoh hm hf hc
  | _ => exact absurd rfl hamong

/-- Where text is content, what is open depends on where the block or branch begins. -/
theorem Coherent.of_holdsText (h : b.Coherent t) (hb : b.context.holdsText = true) :
    (b.entry.isContent = true → b.context.isContent = true ∧ b.Closed
        ∨ b.context = .comment ∧ b.tag = none ∧ b.comment.isSome = true
        ∨ (∃ quotes, b.context = .attrValue quotes) ∧ b.tag.isSome = true ∧ b.value.isSome = true)
      ∧ (b.entry.isInTag = true →
        (∃ quotes, b.context = .attrValue quotes) ∧ b.value.isSome = true) := by
  obtain ⟨ledger, entry, here, inBranch, out, tag, attr, value, comment, filled, raw, off⟩ := b
  dsimp only [Coherent] at h hb
  cases h with
  | content he hh =>
    refine ⟨fun _ => .inl ⟨hh, rfl, rfl, rfl, rfl⟩, fun he' => ?_⟩
    dsimp only at he'
    cases entry <;> first | (cases he; done) | cases he'
  | comment he =>
    refine ⟨fun _ => .inr (.inl ⟨rfl, rfl, rfl⟩), fun he' => ?_⟩
    dsimp only at he'
    cases entry <;> first | (cases he; done) | cases he'
  | inComment he | inValue he =>
    subst he
    exact ⟨nofun, nofun⟩
  | value draft ht ha =>
    refine ⟨fun he => .inr (.inr ⟨⟨_, rfl⟩, ?_, rfl⟩), fun _ => ⟨⟨_, rfl⟩, rfl⟩⟩
    cases tag with
    | some tag => rfl
    | none =>
      dsimp only at he
      cases entry <;> first | (cases he; done) | cases ht
  | _ => cases hb

/-- **Content that is read leaves lasting nodes.** -/
theorem Traced.readContent {c : Char} {cs : Text} (offset : Nat) (h : b.Traced room held (c :: cs))
    (hcoh : b.Coherent (c :: cs)) (hm : (b.context.lexeme c cs).mark = none)
    (hf : (b.context.lexeme c cs).fault = none) :
    (b.enter (b.context.lexeme c cs).next offset).Traced room
      (held ++ (c :: cs).take (b.context.lexeme c cs).width)
      ((c :: cs).drop (b.context.lexeme c cs).width) := by
  obtain ⟨w, hw, hl⟩ := Context.exists_lexeme_eq_content hm hf
  have hmove := Context.lexeme_move b.context c cs
  obtain ⟨-, hholds, -⟩ := Context.Move.of_content hmove hm
  obtain ⟨hcontent, htag⟩ := hcoh.of_holdsText hholds
  have hvalue {quotes : Quotes} (hb : b.context = .attrValue quotes) :
      (b.context.lexeme c cs).next = .attrValue quotes := by
    generalize b.context.lexeme c cs = l at hm hmove ⊢
    rw [hb] at hmove
    cases hmove <;> first | rfl | cases hm
  refine ⟨fun he hd => ?_, fun he hd => ?_, fun he => ?_⟩
  · rw [enter_entry] at he
    rw [enter_out] at hd
    rcases hcontent he with ⟨-, hclosed⟩ | ⟨-, ht, hopen⟩ | ⟨⟨quotes, hb⟩, ht, -⟩
    · have hstretch := (h.stretch he hd hclosed).content hl hw
      unfold TracedContent
      rw [enter_tag, enter_comment, hclosed.1, hclosed.2.2.2, enter_entry, enter_out, enter_context,
        hl]
      exact hstretch
    · obtain ⟨draft, hopen⟩ := Option.isSome_iff_exists.mp hopen
      obtain ⟨rest, hstretch⟩ := h.openComment he hd ht (by rw [hopen]; rfl)
      unfold TracedContent
      rw [enter_tag, enter_comment, ht, hopen, enter_entry, enter_out]
      exact ⟨rest, hstretch⟩
    · obtain ⟨tag, ht⟩ := Option.isSome_iff_exists.mp ht
      obtain ⟨⟨rest, hstretch, -⟩, hcloses⟩ := h.openTag he hd ht
      unfold TracedContent
      rw [enter_tag, ht, enter_entry, enter_out, enter_context, hvalue hb]
      rw [hb] at hcloses
      exact ⟨⟨rest, hstretch, nofun⟩, hcloses⟩
  · rw [enter_entry] at he
    rw [enter_out] at hd ⊢
    exact h.attrs he hd
  · rw [enter_entry] at he
    obtain ⟨⟨quotes, hb⟩, -⟩ := htag (by rw [he]; rfl)
    exact ⟨(enter_attr ..).trans (h.slot he).1,
      .inr (.inl ⟨quotes, (enter_context ..).trans (hvalue hb)⟩)⟩

/-- Content that is added leaves lasting nodes. -/
theorem Traced.addText (location : Span) (h : b.Traced room held rest) (hcoh : b.Coherent t)
    (hne : held ≠ []) (hb : b.context.holdsText = true) :
    (b.addText held location).Traced room [] rest := by
  obtain ⟨hcontent, htag⟩ := hcoh.of_holdsText hb
  have hentry := (extends_addText b held location).entry
  have hcontext := addText_context b held location
  -- in a value and in a comment the finished nodes are left alone
  have hvalue {quotes : Quotes} (hb : b.context = .attrValue quotes) (hv : b.value.isSome = true) :
      ∃ l v, b.addText held location = { b with ledger := l, value := v } := by
    obtain ⟨ledger, entry, here, inBranch, out, tag, attr, value, comment, filled, raw, off⟩ := b
    dsimp only at hb hv
    subst hb
    obtain ⟨v, rfl⟩ := Option.isSome_iff_exists.mp hv
    unfold Assembly.addText
    split <;> exact ⟨_, _, rfl⟩
  have hcomment (hb : b.context = .comment) (hv : b.comment.isSome = true) :
      ∃ l m, b.addText held location = { b with ledger := l, comment := some m } := by
    obtain ⟨ledger, entry, here, inBranch, out, tag, attr, value, comment, filled, raw, off⟩ := b
    dsimp only at hb hv
    subst hb
    obtain ⟨m, rfl⟩ := Option.isSome_iff_exists.mp hv
    unfold Assembly.addText
    split <;> exact ⟨_, _, by cases value <;> rfl⟩
  refine ⟨fun he hd => ?_, fun he hd => ?_, fun he => ?_⟩
  · rw [hentry] at he
    rcases hcontent he with ⟨hb, hclosed⟩ | ⟨hb, ht, hopen⟩ | ⟨⟨quotes, hb⟩, ht, hv⟩
    · rw [durableOut_addText hb] at hd
      have hstretch := (h.stretch he hd hclosed).addText hb hne location
      obtain ⟨l, out, hadd⟩ := addText_of_isContent hb held location
      unfold TracedContent
      rw [hadd] at hstretch ⊢
      dsimp only at hstretch ⊢
      rw [hclosed.1, hclosed.2.2.2]
      exact hstretch
    · obtain ⟨l, m, hadd⟩ := hcomment hb hopen
      rw [hadd] at hd ⊢
      obtain ⟨rest, hstretch⟩ := h.openComment he hd ht hopen
      unfold TracedContent
      dsimp only
      rw [ht]
      exact ⟨rest, hstretch⟩
    · obtain ⟨l, v, hadd⟩ := hvalue hb hv
      rw [hadd] at hd ⊢
      obtain ⟨tag, ht⟩ := Option.isSome_iff_exists.mp ht
      unfold TracedContent
      dsimp only
      rw [ht]
      exact h.openTag he hd ht
  · rw [hentry] at he
    obtain ⟨⟨quotes, hb⟩, hv⟩ := htag (by rw [he]; rfl)
    obtain ⟨l, v, hadd⟩ := hvalue hb hv
    rw [hadd] at hd ⊢
    exact h.attrs he hd
  · rw [hentry] at he
    obtain ⟨⟨quotes, hb⟩, hv⟩ := htag (by rw [he]; rfl)
    obtain ⟨l, v, hadd⟩ := hvalue hb hv
    rw [hadd]
    exact h.slot he

/-- **A run that reports nothing leaves lasting nodes.** -/
theorem Traced.read {run : RawRun} (h : b.Traced room [] t) (hcoh : b.Coherent t)
    (hc : (b.read run 0 none t).Clean) : (b.read run 0 none t).Traced room [] [] := by
  suffices hread : (b.read run 0 none t).Clean →
      (b.read run 0 none t).Coherent [] ∧ (b.read run 0 none t).Traced room [] [] from (hread hc).2
  refine read_rule (P := fun b held t => b.Clean → b.Coherent t ∧ b.Traced room held t)
    ?_ ?_ ?_ (fun _ => ⟨hcoh, h⟩) nofun
  · intro b held c cs location offset hP hm hc
    refine ⟨Coherent.content_of_clean location offset (fun hc => (hP hc).1) hm hc, ?_⟩
    have hc' := (extends_enter ..).clean hc
    have hf := fault_eq_none_of_clean (.refl _) hc'
    rw [reportLexeme_of_fault_eq_none hf] at hc' ⊢
    exact (hP hc').2.readContent offset (hP hc').1 hm hf
  · intro b held t location hP hne hb hc
    obtain ⟨hcoh, h⟩ := hP ((extends_addText ..).clean hc)
    exact ⟨hcoh.addText _ location, h.addText location hcoh hne hb⟩
  · intro b c cs m location place hP hm hc
    refine ⟨Coherent.mark_of_clean location place (fun hc => (hP hc).1) hm hc, ?_⟩
    have hc' := (extends_apply ..).clean hc
    have hf := fault_eq_none_of_clean (.refl _) hc'
    rw [reportLexeme_of_fault_eq_none hf] at hc hc' ⊢
    exact (hP hc').2.apply place (hP hc').1 hm hf hc

end Marks

end Assembly

end TemplateMarkup
