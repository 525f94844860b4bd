/-
# Where an assembly puts its nodes

Everything that an assembly holds was read between the offset at which its block begins (`lo`) and
the offset that has been reached (`hi`).  `Assembly.Seated` says so for the finished nodes and for the
drafts: a draft begins no earlier than the draft around it, and what has been read of it stands behind
its beginning.  All offsets are those of characters of the source; their order is kept as long as
nothing has been reported (`clean`), for after a fault a value may outlive the tag that it is in.

Each operation takes what it adds from behind `hi`, and moves `hi` to the end of that.
-/
import TemplateMarkup.Proofs.Html.Coherence
import TemplateMarkup.Proofs.Html.RunPlaces

namespace TemplateMarkup

/-! ## 1. Drafts -/

/-- Every diagnostic stands where whole characters of the source stand. -/
def Ledger.Sound (src : Text) (l : Ledger) : Prop := ∀ d ∈ l.diagnostics, d.location.Sound src

theorem Ledger.Sound.report {src : Text} {l : Ledger} (h : l.Sound src) {location : Span}
    (hs : location.Sound src) (fault : Fault) : (l.report location fault).Sound src :=
  List.forall_mem_cons.mpr ⟨hs, h⟩

section Drafts

variable (src : Text) (clean : Prop) (lo hi : Nat)

/-- The tag begins between the offsets, and its parts stand behind its beginning. -/
structure TagDraft.Seated (t : TagDraft) : Prop where
  start : src.Offset clean lo hi t.start
  nameLocation : t.nameLocation.Lies src clean t.start hi
  name : SeatedIn src clean t.start hi t.name.toList
  children : SeatedIn src clean t.start hi t.children

/-- So do the attribute and its name. -/
structure AttrDraft.Seated (a : AttrDraft) : Prop where
  start : src.Offset clean lo hi a.start
  nameLocation : a.nameLocation.Lies src clean a.start hi
  name : SeatedIn src clean a.start hi a.name.toList

/-- So do the value and its content. -/
structure ValueDraft.Seated (v : ValueDraft) : Prop where
  start : src.Offset clean lo hi v.start
  children : SeatedIn src clean v.start hi v.children

/-- So do the comment and its content. -/
structure CommentDraft.Seated (c : CommentDraft) : Prop where
  start : src.Offset clean lo hi c.start
  children : SeatedIn src clean c.start hi c.children

end Drafts

section

variable {src : Text} {clean : Prop} {lo lo' hi hi' : Nat}

theorem TagDraft.Seated.mono {t : TagDraft} (h : t.Seated src clean lo hi)
    (hlo : clean → lo' ≤ lo) (hhi : clean → hi ≤ hi') : t.Seated src clean lo' hi' where
  start := h.start.mono hlo hhi
  nameLocation := h.nameLocation.mono (fun _ => Nat.le_refl _) hhi
  name := h.name.mono (fun _ => Nat.le_refl _) hhi
  children := h.children.mono (fun _ => Nat.le_refl _) hhi

theorem AttrDraft.Seated.mono {a : AttrDraft} (h : a.Seated src clean lo hi)
    (hlo : clean → lo' ≤ lo) (hhi : clean → hi ≤ hi') : a.Seated src clean lo' hi' where
  start := h.start.mono hlo hhi
  nameLocation := h.nameLocation.mono (fun _ => Nat.le_refl _) hhi
  name := h.name.mono (fun _ => Nat.le_refl _) hhi

theorem ValueDraft.Seated.mono {v : ValueDraft} (h : v.Seated src clean lo hi)
    (hlo : clean → lo' ≤ lo) (hhi : clean → hi ≤ hi') : v.Seated src clean lo' hi' where
  start := h.start.mono hlo hhi
  children := h.children.mono (fun _ => Nat.le_refl _) hhi

theorem CommentDraft.Seated.mono {c : CommentDraft} (h : c.Seated src clean lo hi)
    (hlo : clean → lo' ≤ lo) (hhi : clean → hi ≤ hi') : c.Seated src clean lo' hi' where
  start := h.start.mono hlo hhi
  children := h.children.mono (fun _ => Nat.le_refl _) hhi

end

/-! ## 2. Assemblies -/

namespace Assembly

/-- Where the open tag begins, or the block. -/
def tagStart (lo : Nat) (b : Assembly) : Nat := (b.tag.map TagDraft.start).getD lo

/-- Where the open attribute begins, or what is around it. -/
def attrStart (lo : Nat) (b : Assembly) : Nat := (b.attr.map AttrDraft.start).getD (b.tagStart lo)

/-- Where that begins beside whose nodes content goes. -/
def contentStart (lo : Nat) (b : Assembly) : Nat :=
  match b.context, b.value, b.comment with
  | .attrValue _, some value, _ => value.start
  | .comment, _, some comment => comment.start
  | _, _, _ => lo

/-- **Everything in the assembly stands between two offsets**, and each draft behind the beginning
of the draft around it. -/
structure Seated (src : Text) (clean : Prop) (lo hi : Nat) (b : Assembly) : Prop where
  le : lo ≤ hi
  reached : b.offset ≤ hi
  offset : src.Boundary b.offset
  rawStart : ∀ o, b.rawStart = some o → src.Boundary o
  ledger : b.ledger.Sound src
  out : SeatedIn src clean lo hi b.out
  tag : ∀ t, b.tag = some t → t.Seated src clean lo hi
  attr : ∀ a, b.attr = some a → a.Seated src clean (b.tagStart lo) hi
  value : ∀ v, b.value = some v → v.Seated src clean (b.attrStart lo) hi
  comment : ∀ c, b.comment = some c → c.Seated src clean lo hi

section Operations

variable {src : Text} {clean : Prop} {lo hi hi' : Nat} {b : Assembly}

theorem seated_start {l : Ledger} (hl : l.Sound src) (entry : Context) (inBranch : Bool)
    {offset : Nat} (ho : src.Boundary offset) :
    (start l entry inBranch offset).Seated src clean offset offset where
  le := Nat.le_refl _
  reached := Nat.le_refl _
  offset := ho
  rawStart := by
    intro o h
    simp only [start] at h
    split at h <;> cases h
    exact ho
  ledger := hl
  out := seatedIn_nil
  tag := nofun
  attr := nofun
  value := nofun
  comment := nofun

theorem Seated.mono (h : b.Seated src clean lo hi) (hle : hi ≤ hi') : b.Seated src clean lo hi' where
  le := h.le.trans hle
  reached := h.reached.trans hle
  offset := h.offset
  rawStart := h.rawStart
  ledger := h.ledger
  out := h.out.mono (fun _ => Nat.le_refl _) fun _ => hle
  tag := fun t ht => (h.tag t ht).mono (fun _ => Nat.le_refl _) fun _ => hle
  attr := fun a ha => (h.attr a ha).mono (fun _ => Nat.le_refl _) fun _ => hle
  value := fun v hv => (h.value v hv).mono (fun _ => Nat.le_refl _) fun _ => hle
  comment := fun c hc => (h.comment c hc).mono (fun _ => Nat.le_refl _) fun _ => hle

theorem tagStart_of_none (h : b.tag = none) : b.tagStart lo = lo := by simp [tagStart, h]

theorem tagStart_of_some {t : TagDraft} (h : b.tag = some t) : b.tagStart lo = t.start := by
  simp [tagStart, h]

theorem attrStart_of_none (h : b.attr = none) : b.attrStart lo = b.tagStart lo := by
  simp [attrStart, h]

theorem attrStart_of_some {a : AttrDraft} (h : b.attr = some a) : b.attrStart lo = a.start := by
  simp [attrStart, h]

theorem Seated.offset_tagStart (h : b.Seated src clean lo hi) (hc : clean) :
    lo ≤ b.tagStart lo ∧ b.tagStart lo ≤ hi := by
  cases ht : b.tag with
  | none =>
    rw [tagStart_of_none ht]
    exact ⟨Nat.le_refl _, h.le⟩
  | some t =>
    rw [tagStart_of_some ht]
    exact (h.tag t ht).start.2 hc

theorem Seated.offset_attrStart (h : b.Seated src clean lo hi) (hc : clean) :
    b.tagStart lo ≤ b.attrStart lo ∧ b.attrStart lo ≤ hi := by
  cases ha : b.attr with
  | none =>
    rw [attrStart_of_none ha]
    exact ⟨Nat.le_refl _, (h.offset_tagStart hc).2⟩
  | some a =>
    rw [attrStart_of_some ha]
    exact (h.attr a ha).start.2 hc

/-! ### Ledger and context -/

theorem Seated.withLedger (h : b.Seated src clean lo hi) {l : Ledger} (hl : l.Sound src) :
    ({ b with ledger := l } : Assembly).Seated src clean lo hi :=
  { h with ledger := hl }

theorem Seated.enter (h : b.Seated src clean lo hi) (next : Context) {offset : Nat}
    (ho : src.Boundary offset) : (b.enter next offset).Seated src clean lo hi := by
  unfold Assembly.enter
  split
  · exact h
  · refine { h with rawStart := fun o hr => ?_ }
    dsimp only at hr
    split at hr
    · cases hr
      exact ho
    · exact h.rawStart o hr

theorem Seated.report (h : b.Seated src clean lo hi) {location : Span} (hs : location.Sound src)
    (fault : Fault) : (b.report location fault).Seated src clean lo hi :=
  h.withLedger (h.ledger.report hs fault)

theorem Seated.reportLexeme (h : b.Seated src clean lo hi) {location : Span}
    (hs : location.Sound src) (l : Lexeme) :
    (b.reportLexeme location l).Seated src clean lo hi := by
  unfold Assembly.reportLexeme
  split
  · exact h
  all_goals exact h.report hs _

/-! ### Drafts -/

/-- The tag goes on where it began. -/
theorem Seated.setTag (h : b.Seated src clean lo hi) {t t' : TagDraft} (ht : b.tag = some t)
    (ht' : t'.Seated src clean lo hi) (hs : t'.start = t.start) :
    ({ b with tag := some t' } : Assembly).Seated src clean lo hi := by
  have htag : ({ b with tag := some t' } : Assembly).tagStart lo = b.tagStart lo := by
    rw [tagStart_of_some rfl, tagStart_of_some ht, hs]
  have hattr : ({ b with tag := some t' } : Assembly).attrStart lo = b.attrStart lo := by
    simp only [attrStart, htag]
  exact { h with
    tag := fun _ h' => by cases h'; exact ht'
    attr := fun a ha => htag ▸ h.attr a ha
    value := fun v hv => hattr ▸ h.value v hv }

/-- The attribute goes on where it began. -/
theorem Seated.setAttr (h : b.Seated src clean lo hi) {a a' : AttrDraft} (ha : b.attr = some a)
    (ha' : a'.Seated src clean (b.tagStart lo) hi) (hs : a'.start = a.start) :
    ({ b with attr := some a' } : Assembly).Seated src clean lo hi := by
  have hattr : ({ b with attr := some a' } : Assembly).attrStart lo = b.attrStart lo := by
    rw [attrStart_of_some rfl, attrStart_of_some ha, hs]
  exact { h with
    attr := fun _ h' => by cases h'; exact ha'
    value := fun v hv => hattr ▸ h.value v hv }

theorem Seated.dropTag (h : b.Seated src clean lo hi) :
    ({ b with tag := none } : Assembly).Seated src clean lo hi := by
  have hattr (hc : clean) : ({ b with tag := none } : Assembly).attrStart lo ≤ b.attrStart lo := by
    cases ha : b.attr with
    | none =>
      rw [attrStart_of_none ha]
      exact (h.offset_tagStart hc).1
    | some a =>
      rw [attrStart_of_some ha]
      exact Nat.le_refl _
  exact { h with
    tag := nofun
    attr := fun a ha => (h.attr a ha).mono (fun hc => (h.offset_tagStart hc).1) fun _ => Nat.le_refl _
    value := fun v hv => (h.value v hv).mono hattr fun _ => Nat.le_refl _ }

theorem Seated.dropAttr (h : b.Seated src clean lo hi) :
    ({ b with attr := none } : Assembly).Seated src clean lo hi :=
  { h with
    attr := nofun
    value := fun v hv =>
      (h.value v hv).mono (fun hc => (h.offset_attrStart hc).1) fun _ => Nat.le_refl _ }

theorem Seated.openValue (h : b.Seated src clean lo hi) {v : ValueDraft}
    (hv : v.Seated src clean (b.attrStart lo) hi) :
    ({ b with value := some v } : Assembly).Seated src clean lo hi :=
  { h with value := fun _ h' => by cases h'; exact hv }

/-! ### Content -/

theorem Seated.addOut (h : b.Seated src clean lo hi) {n : Node}
    (hn : SeatedIn src clean lo hi [n]) : (b.addOut n).Seated src clean lo hi :=
  { h with out := seatedIn_cons.mpr ⟨hn n List.mem_cons_self, h.out⟩ }

theorem Seated.contentStart_le (h : b.Seated src clean lo hi) (hc : clean) :
    b.contentStart lo ≤ hi := by
  unfold contentStart
  split
  · next _ hv => exact ((h.value _ hv).start.2 hc).2
  · next _ hm => exact ((h.comment _ hm).start.2 hc).2
  · exact h.le

theorem contentStart_of_isContent (h : b.context.isContent = true) : b.contentStart lo = lo := by
  unfold contentStart
  split
  · next hx _ => rw [hx] at h; cases h
  · next hx _ => rw [hx] at h; cases h
  · rfl

theorem Seated.content (h : b.Seated src clean lo hi) :
    SeatedIn src clean (b.contentStart lo) hi b.content := by
  unfold Assembly.content contentStart
  -- both sides look at the context and at the drafts in it, so these are told apart first
  cases b.context <;> cases hv : b.value <;> cases hm : b.comment <;>
    first
    | exact (h.value _ hv).children
    | exact (h.comment _ hm).children
    | exact h.out

theorem Seated.setContent (h : b.Seated src clean lo hi) {nodes : List Node}
    (hn : SeatedIn src clean (b.contentStart lo) hi nodes) :
    (b.setContent nodes).Seated src clean lo hi := by
  unfold contentStart at hn
  unfold Assembly.setContent
  split
  · next hx hv =>
    rw [hx, hv] at hn
    exact { h with value := fun _ h' => by cases h'; exact ⟨(h.value _ hv).start, hn⟩ }
  · next hx hm =>
    rw [hx, hm] at hn
    exact { h with comment := fun _ h' => by cases h'; exact ⟨(h.comment _ hm).start, hn⟩ }
  · next h1 h2 =>
    refine { h with out := ?_ }
    split at hn
    · next hx hv => exact absurd hv (h1 _ _ hx)
    · next hx hm => exact absurd hm (h2 _ hx)
    · exact hn

theorem Seated.addText (h : b.Seated src clean lo hi) (text : Text) {location : Span}
    (hl : location.Lies src clean (b.contentStart lo) hi) :
    (b.addText text location).Seated src clean lo hi := by
  have hc := h.content
  unfold Assembly.addText
  split
  · next hb =>
    rw [hb] at hc
    obtain ⟨hbefore, hnodes⟩ := seatedIn_cons.mp hc
    have hunion := hbefore.1.union hl
    exact h.setContent (seatedIn_cons.mpr
      ⟨⟨hunion, Node.seatedDeep_raw hunion.sound _ _⟩, hnodes⟩)
  · refine (h.withLedger (l := b.ledger.drawn) h.ledger).setContent ?_
    exact seatedIn_cons.mpr ⟨⟨hl, Node.seatedDeep_raw hl.sound _ _⟩, hc⟩

/-- Text that was read behind what the assembly has. -/
theorem Seated.addTextBehind (h : b.Seated src clean lo hi) (text : Text) {location : Span}
    (hs : location.Sound src) (hle : hi ≤ location.start) :
    (b.addText text location).Seated src clean lo location.stop :=
  (h.mono (hle.trans location.start_le_stop)).addText text
    (hs.lies (fun hc => (h.contentStart_le hc).trans hle) fun _ => Nat.le_refl _)

/-- A node that was read behind what the assembly has. -/
theorem Seated.addContent (h : b.Seated src clean lo hi) {n : Node} (hn : n.SeatedDeep src clean)
    (hle : hi ≤ n.location.start) : (b.addContent n).Seated src clean lo n.location.stop := by
  have h' := h.mono (hle.trans n.location.start_le_stop)
  refine h'.setContent (seatedIn_cons.mpr ⟨⟨?_, hn⟩, h'.content⟩)
  exact hn.self.sound.lies (fun hc => (h.contentStart_le hc).trans hle) fun _ => Nat.le_refl _

theorem Seated.addAmongAttrs (h : b.Seated src clean lo hi) {n : Node}
    (hn : SeatedIn src clean (b.tagStart lo) hi [n]) :
    (b.addAmongAttrs n).Seated src clean lo hi := by
  unfold Assembly.addAmongAttrs
  split
  · next t ht =>
    rw [tagStart_of_some ht] at hn
    have ht' := h.tag t ht
    exact h.setTag ht { ht' with
      children := seatedIn_cons.mpr ⟨hn n List.mem_cons_self, ht'.children⟩ } rfl
  · next ht =>
    rw [tagStart_of_none ht] at hn
    exact h.addOut hn

theorem Seated.addAmongAttrsBehind (h : b.Seated src clean lo hi) {n : Node}
    (hn : n.SeatedDeep src clean) (hle : hi ≤ n.location.start) :
    (b.addAmongAttrs n).Seated src clean lo n.location.stop :=
  (h.mono (hle.trans n.location.start_le_stop)).addAmongAttrs
    (hn.seatedIn (fun hc => (h.offset_tagStart hc).2.trans hle) fun _ => Nat.le_refl _)

/-! ### Tags -/

/-- A tag opens where no attribute and no value is open. -/
theorem Seated.openTag (h : b.Seated src clean lo hi) (close : Bool) {location : Span}
    (hs : location.Sound src) (hle : hi ≤ location.start)
    (hfree : clean → b.attr = none ∧ b.value = none) :
    (b.openTag close location).Seated src clean lo location.stop := by
  have h' := h.mono (hle.trans location.start_le_stop)
  have hstop := hs.stop_boundary
  refine { h' with tag := ?_, attr := ?_, value := ?_ }
  · rintro _ ⟨⟩
    refine ⟨⟨hs.start_boundary, fun _ => ⟨h.le.trans hle, location.start_le_stop⟩⟩, ?_,
      seatedIn_nil, seatedIn_nil⟩
    exact (Span.sound_point hstop).lies (fun _ => location.start_le_stop) fun _ => Nat.le_refl _
  · intro a ha
    refine (h'.attr a ha).mono (fun hc => ?_) fun _ => Nat.le_refl _
    have ha' : b.attr = some a := ha
    rw [(hfree hc).1] at ha'
    cases ha'
  · intro v hv
    refine (h'.value v hv).mono (fun hc => ?_) fun _ => Nat.le_refl _
    have hv' : b.value = some v := hv
    rw [(hfree hc).2] at hv'
    cases hv'

theorem Seated.addTagName (h : b.Seated src clean lo hi) (text : Text) {location : Span}
    (hs : location.Sound src) (hle : hi ≤ location.start) :
    (b.addTagName text location).Seated src clean lo location.stop := by
  have h' := h.mono (hle.trans location.start_le_stop)
  unfold Assembly.addTagName
  split
  · exact h'
  · next t ht =>
    have ht' := h'.tag t ht
    have hl : location.Lies src clean t.start location.stop :=
      hs.lies (fun hc => ((h.tag t ht).start.2 hc).2.trans hle) fun _ => Nat.le_refl _
    refine h'.setTag ht { ht' with nameLocation := ?_ } rfl
    dsimp only
    split
    · exact hl
    · exact ht'.nameLocation.union hl

theorem Seated.finishTagName (h : b.Seated src clean lo hi) :
    b.finishTagName.Seated src clean lo hi := by
  unfold Assembly.finishTagName
  split
  · exact h
  · next t ht =>
    split
    · have ht' := h.tag t ht
      refine (h.withLedger (l := b.ledger.drawn) h.ledger).setTag ht { ht' with name := ?_ } rfl
      exact seatedIn_cons.mpr ⟨⟨ht'.nameLocation,
        Node.seatedDeep_raw ht'.nameLocation.sound _ _⟩, seatedIn_nil⟩
    · exact h

theorem Seated.abortTag (h : b.Seated src clean lo hi) : b.abortTag.Seated src clean lo hi := by
  unfold Assembly.abortTag
  split
  · exact h
  · next t ht =>
    have ht' := h.tag t ht
    have hlo (hc : clean) := (ht'.start.2 hc).1
    have hcontent : t.outside.isContent = true := by
      unfold TagDraft.outside
      split <;> rfl
    have hlies : (Span.upTo t.start t.nameLocation.stop).Lies src clean
        (contentStart lo ({ b with tag := none }.enter t.outside t.start)) hi := by
      rw [contentStart_of_isContent (by rw [enter_context]; exact hcontent)]
      exact Span.lies_upTo ht'.start (ht'.nameLocation.2.mono hlo fun _ => Nat.le_refl _)
    have htext := (h.dropTag.enter t.outside ht'.start.1).addText
      ((if t.close then ['<', '/'] else ['<']) ++ t.nameText) hlies
    dsimp only
    split
    · next n hn =>
      have hname := ht'.name
      rw [hn] at hname
      exact htext.addOut (hname.mono hlo fun _ => Nat.le_refl _)
    · exact htext

/-- A tag that ends at an offset, as a node. -/
theorem seatedIn_upTo {n : Node} {start stop : Nat} {inner : List Node} (hle : hi ≤ stop)
    (hs : src.Offset clean lo hi start) (hstop : src.Boundary stop)
    (hloc : n.location = .upTo start stop) (hparts : n.parts = [(n.location, inner)])
    (hinner : SeatedIn src clean start stop inner) : SeatedIn src clean lo stop [n] := by
  have hlies : n.location.Lies src clean lo stop := by
    rw [hloc]
    refine Span.lies_upTo (hs.mono (fun _ => Nat.le_refl _) fun _ => hle) ⟨hstop, fun hc => ?_⟩
    have := hs.2 hc
    omega
  refine seatedIn_cons.mpr ⟨⟨hlies, Node.seatedDeep_of_part hlies.sound hparts ?_⟩, seatedIn_nil⟩
  rw [hloc]
  exact hinner.mono (fun _ => Nat.le_refl _) fun _ => Nat.le_max_right ..

/-- A close tag ends at an offset: what stood among its attributes comes after it. -/
theorem Seated.addCloseTag (h : b.Seated src clean lo hi) {tag : TagDraft}
    (ht : tag.Seated src clean lo hi) {name : Node} (hn : SeatedIn src clean tag.start hi [name])
    {stop : Nat} (hle : hi ≤ stop) (hstop : src.Boundary stop) :
    (b.addCloseTag tag name (.upTo tag.start stop)).Seated src clean lo stop := by
  have hloc := Span.sound_upTo ht.start.1 hstop
  have hnode := seatedIn_upTo (n := .closeTag b.ledger.ids.next (.upTo tag.start stop) name) hle
    ht.start hstop rfl rfl (hn.mono (fun _ => Nat.le_refl _) fun _ => hle)
  have h' := h.mono hle
  have hchildren := ht.children.mono (fun hc => (ht.start.2 hc).1) fun _ => hle
  have hout := hchildren.append (seatedIn_cons.mpr ⟨hnode _ List.mem_cons_self, h'.out⟩)
  unfold Assembly.addCloseTag
  dsimp only
  refine Seated.enter ?_ _ ht.start.1
  have hb := h'.withLedger (l := b.ledger.drawnForHtml) h'.ledger
  split <;> split
  · exact { (hb.report hloc _).report hloc _ with out := hout }
  · exact { hb.report hloc _ with out := hout }
  · exact { hb.report hloc _ with out := hout }
  · exact { hb with out := hout }

/-- An open tag ends at an offset. -/
theorem Seated.addOpenTag (h : b.Seated src clean lo hi) {tag : TagDraft}
    (ht : tag.Seated src clean lo hi) {name : Node} (hn : SeatedIn src clean tag.start hi [name])
    {stop : Nat} (hle : hi ≤ stop) (hstop : src.Boundary stop) (selfClosing bodyFollows : Bool) :
    (b.addOpenTag tag name (.upTo tag.start stop) selfClosing bodyFollows).Seated
      src clean lo stop := by
  have hinner : SeatedIn src clean tag.start stop (name :: tag.children.reverse) :=
    seatedIn_cons.mpr ⟨(hn.mono (fun _ => Nat.le_refl _) fun _ => hle) _ List.mem_cons_self,
      ht.children.reverse.mono (fun _ => Nat.le_refl _) fun _ => hle⟩
  have hnode := seatedIn_upTo (n := .openTag b.ledger.ids.next (.upTo tag.start stop) name
    tag.children.reverse selfClosing) hle ht.start hstop rfl rfl hinner
  have h' := h.mono hle
  unfold Assembly.addOpenTag
  refine Seated.enter ?_ _ ht.start.1
  exact { h'.withLedger (l := b.ledger.drawnForHtml) h'.ledger with
    out := seatedIn_cons.mpr ⟨hnode _ List.mem_cons_self, h'.out⟩ }

theorem Seated.closeTag (h : b.Seated src clean lo hi) (selfClosing : Bool) {stop : Nat}
    (hle : hi ≤ stop) (hstop : src.Boundary stop) (bodyFollows : Bool) :
    (b.closeTag selfClosing stop bodyFollows).Seated src clean lo stop := by
  unfold Assembly.closeTag
  split
  · exact h.mono hle
  · next t ht =>
    have ht' := h.tag t ht
    split
    · exact h.abortTag.mono hle
    · next n hn =>
      have hname := ht'.name
      rw [hn] at hname
      dsimp only
      split
      · exact h.dropTag.addCloseTag ht' hname hle hstop
      · exact h.dropTag.addOpenTag ht' hname hle hstop _ _

/-! ### Attributes -/

theorem Seated.reportAttr (h : b.Seated src clean lo hi) {location : Span}
    (hs : location.Sound src) : (b.reportAttr location).Seated src clean lo hi := by
  unfold Assembly.reportAttr
  split
  · exact h
  · exact h.report hs _
  · next t _ ht =>
    split
    · exact h
    · exact (h.report hs _).setTag ht { h.tag t ht with } rfl

/-- An attribute opens where no value is open. -/
theorem Seated.openAttr (h : b.Seated src clean lo hi) {location : Span} (hs : location.Sound src)
    (hle : hi ≤ location.start) {name : Option Node}
    (hn : SeatedIn src clean location.start location.stop name.toList) (discard : Bool)
    (hfree : clean → b.value = none) :
    (b.openAttr location name discard).Seated src clean lo location.stop := by
  have hr := h.reportAttr hs
  have h' := hr.mono (hle.trans location.start_le_stop)
  unfold Assembly.openAttr
  refine { h' with attr := ?_, value := ?_ }
  · rintro _ ⟨⟩
    refine ⟨⟨hs.start_boundary, fun hc => ⟨(hr.offset_tagStart hc).2.trans hle,
      location.start_le_stop⟩⟩, ?_, hn⟩
    exact hs.lies (fun _ => Nat.le_refl _) fun _ => Nat.le_refl _
  · intro v hv
    refine (h'.value v hv).mono (fun hc => ?_) fun _ => Nat.le_refl _
    have hv' : (b.reportAttr location).value = some v := hv
    rw [reportAttr_value, hfree hc] at hv'
    cases hv'

theorem Seated.addAttrName (h : b.Seated src clean lo hi) (text : Text) {location : Span}
    (hs : location.Sound src) (hle : hi ≤ location.start) :
    (b.addAttrName text location).Seated src clean lo location.stop := by
  have h' := h.mono (hle.trans location.start_le_stop)
  unfold Assembly.addAttrName
  split
  · exact h'
  · next a ha =>
    split
    · exact h'
    · have ha' := h'.attr a ha
      have hl : location.Lies src clean a.start location.stop :=
        hs.lies (fun hc => ((h.attr a ha).start.2 hc).2.trans hle) fun _ => Nat.le_refl _
      refine h'.setAttr ha { ha' with nameLocation := ?_ } rfl
      dsimp only
      split
      · exact hl
      · exact ha'.nameLocation.union hl

theorem Seated.discardAttr (h : b.Seated src clean lo hi) : b.discardAttr.Seated src clean lo hi := by
  unfold Assembly.discardAttr
  cases ha : b.attr with
  | none =>
    rw [Option.map_none, ← ha]
    exact h
  | some a =>
    exact h.setAttr ha { h.attr a ha with } rfl

theorem Seated.finishAttrName (h : b.Seated src clean lo hi) :
    b.finishAttrName.Seated src clean lo hi := by
  unfold Assembly.finishAttrName
  split
  · exact h
  · next a ha =>
    split
    · have ha' := h.attr a ha
      refine (h.withLedger (l := b.ledger.drawn) h.ledger).setAttr ha { ha' with name := ?_ } rfl
      exact seatedIn_cons.mpr ⟨⟨ha'.nameLocation,
        Node.seatedDeep_raw ha'.nameLocation.sound _ _⟩, seatedIn_nil⟩
    · exact h

/-- An attribute ends at an offset. -/
theorem Seated.addAttr (h : b.Seated src clean lo hi) {a : AttrDraft}
    (ha : a.Seated src clean (b.tagStart lo) hi) {value : Option Node} {stop : Nat}
    (hv : SeatedIn src clean a.start stop value.toList) (hle : hi ≤ stop)
    (hstop : src.Boundary stop) : (b.addAttr a value stop).Seated src clean lo stop := by
  unfold Assembly.addAttr
  split
  · exact h.mono hle
  · split
    · exact h.mono hle
    · next n hn =>
      have hname := ha.name
      rw [hn] at hname
      have hinner : SeatedIn src clean a.start stop (n :: value.toList) :=
        seatedIn_cons.mpr
          ⟨(hname.mono (fun _ => Nat.le_refl _) fun _ => hle) n List.mem_cons_self, hv⟩
      have h' := h.mono hle
      exact (h'.withLedger (l := b.ledger.drawnForHtml) h'.ledger).addAmongAttrs
        (seatedIn_upTo hle ha.start hstop rfl rfl hinner)

theorem Seated.endAttr (h : b.Seated src clean lo hi) {stop : Nat} (hle : hi ≤ stop)
    (hstop : src.Boundary stop) : (b.endAttr stop).Seated src clean lo stop := by
  have hf := h.finishAttrName
  unfold Assembly.endAttr
  dsimp only
  split
  · exact hf.mono hle
  · next a ha => exact hf.dropAttr.addAttr (hf.attr a ha) seatedIn_nil hle hstop

theorem Seated.closeAttr (h : b.Seated src clean lo hi) {stop : Nat} (hle : hi ≤ stop)
    (hstop : src.Boundary stop) : (b.closeAttr stop).Seated src clean lo stop :=
  (h.endAttr hle hstop).enter _ hstop

/-! ### Values and comments -/

theorem Seated.giveValue (h : b.Seated src clean lo hi) {value : Node} {stop : Nat}
    (hv : SeatedIn src clean (b.attrStart lo) stop [value]) (hle : hi ≤ stop)
    (hstop : src.Boundary stop) : (b.giveValue value stop).Seated src clean lo stop := by
  unfold Assembly.giveValue
  split
  · next a ha =>
    rw [attrStart_of_some ha] at hv
    exact h.dropAttr.addAttr (h.attr a ha) hv hle hstop
  · next ha =>
    have hlo (hc : clean) := (h.offset_tagStart hc).1.trans (h.offset_attrStart hc).1
    exact { (h.mono hle).addOut (hv.mono hlo fun _ => Nat.le_refl _) with }

theorem Seated.fillSlot (h : b.Seated src clean lo hi) {value : Node} {stop : Nat}
    (hv : SeatedIn src clean (b.attrStart lo) stop [value]) (hle : hi ≤ stop)
    (hstop : src.Boundary stop) : (b.fillSlot value stop).Seated src clean lo stop :=
  (h.giveValue hv hle hstop).enter _ hstop

theorem Seated.endValue (h : b.Seated src clean lo hi) {stop : Nat} (hle : hi ≤ stop)
    (hstop : src.Boundary stop) : (b.endValue stop).Seated src clean lo stop := by
  unfold Assembly.endValue
  split
  · exact h.mono hle
  · next v hv =>
    have hv' := h.value v hv
    have hnode := seatedIn_upTo (n := .attrValue b.ledger.ids.next (.upTo v.start stop) v.quotes
      v.children.reverse) hle hv'.start hstop rfl rfl
      (hv'.children.reverse.mono (fun _ => Nat.le_refl _) fun _ => hle)
    have hdrop : ({ b with ledger := b.ledger.drawnForHtml, value := none } : Assembly).Seated
        src clean lo hi := { h.withLedger (l := b.ledger.drawnForHtml) h.ledger with value := nofun }
    exact hdrop.giveValue hnode hle hstop

theorem Seated.closeValue (h : b.Seated src clean lo hi) {stop : Nat} (hle : hi ≤ stop)
    (hstop : src.Boundary stop) : (b.closeValue stop).Seated src clean lo stop := by
  unfold Assembly.closeValue
  split
  · exact h.mono hle
  · exact (h.endValue hle hstop).enter _ hstop

theorem Seated.endComment (h : b.Seated src clean lo hi) {stop : Nat} (hle : hi ≤ stop)
    (hstop : src.Boundary stop) : (b.endComment stop).Seated src clean lo stop := by
  unfold Assembly.endComment
  split
  · exact h.mono hle
  · next c hc =>
    have hc' := h.comment c hc
    have hnode := seatedIn_upTo (n := .comment b.ledger.ids.next (.upTo c.start stop)
      c.children.reverse) hle hc'.start hstop rfl rfl
      (hc'.children.reverse.mono (fun _ => Nat.le_refl _) fun _ => hle)
    refine Seated.addOut ?_ hnode
    exact { (h.mono hle).withLedger (l := b.ledger.drawnForHtml) h.ledger with comment := nofun }

end Operations

end Assembly

end TemplateMarkup
