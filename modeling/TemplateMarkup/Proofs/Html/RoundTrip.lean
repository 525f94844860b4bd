/-
# Flattened html is read back

A canonical list is rewritten from its flattened form to itself, but for names and places, and
nothing is reported (`Template.rewrite_flatten`).

The induction goes over the list that is spelled, with what follows it left open: to read the
spelling of a node and then the rest comes to the same as to add the finished node (`lay`) and to
read the rest.  What may follow depends on the node (`Follows`): text ends at a mark, and a name or
a value without quotes at what cannot be more of it.
-/
import TemplateMarkup.Proofs.Html.Constructs

namespace TemplateMarkup

/-! ## 1. What follows -/

/-- What is left to read may follow the nodes, which lead to context `final`. -/
structure Assembly.Follows (b : Assembly) (final : Context) (nodes : List Node) (s : Spelled) :
    Prop where
  /-- A mark ends the text that is last. -/
  text : (nodes.getLast?.any fun n => n.rawText?.isSome) = true → final.Breaks s.text
  /-- In a tag, the name that is last has its end. -/
  name : final = .beforeAttrName → s.endsName = true
  /-- So has the value without quotes that is last. -/
  value : final = .beforeAttrName → lastEndsBare nodes = true →
    s.endsValue = true ∧ (s.text = [] → b.tag = none ∧ b.comment = none)

/-- Where text may stand, a canonical node that is not text begins with a mark or with a command. -/
theorem Node.breaks_spell {here : Context} {n : Node} (h : n.canonicalIn here = true)
    (ht : here.isText = true) (hn : n.rawText? = none) (spaced : Bool) (s : Spelled) :
    here.Breaks (n.spell spaced s).text := by
  cases n with
  | raw id loc t => cases hn
  | print id loc e =>
    rw [Node.spell]
    exact here.breaks_nil
  | call id loc callee params =>
    rw [Node.spell]
    exact here.breaks_nil
  | binding id loc var value =>
    rw [Node.canonicalIn] at h
    cases h
  | flow f =>
    rw [Node.spell]
    exact here.breaks_nil
  | openTag id loc name children selfClosing =>
    simp only [Node.canonicalIn, Bool.and_eq_true, beq_iff_eq] at h
    obtain ⟨⟨⟨rfl, hname⟩, -⟩, -⟩ := h
    rw [Node.spell]
    rintro c cs hc
    obtain ⟨rfl, rfl⟩ := List.cons.inj hc
    exact ⟨_, _, _, lexeme_openTag hname _⟩
  | closeTag id loc name =>
    simp only [Node.canonicalIn, Bool.and_eq_true] at h
    rw [Node.spell]
    rintro c cs hc
    obtain ⟨rfl, rfl⟩ := List.cons.inj hc
    cases here with
    | pcdata => exact ⟨_, _, _, lexeme_closeTag h.1 _⟩
    | rcdata e => exact ⟨_, _, _, lexeme_closeRcdata (beq_iff_eq.mp h.2) s⟩
    | _ => cases h.2
  | attr id loc name value =>
    cases value <;> simp only [Node.canonicalIn, Bool.and_eq_true, beq_iff_eq] at h
    · obtain ⟨rfl, -⟩ := h
      cases ht
    · obtain ⟨⟨rfl, -⟩, -⟩ := h
      cases ht
  | attrValue id loc quotes children =>
    rw [Node.canonicalIn] at h
    cases h
  | comment id loc children =>
    simp only [Node.canonicalIn, Bool.and_eq_true, beq_iff_eq] at h
    obtain ⟨rfl, -⟩ := h
    rw [Node.spell]
    rintro c cs hc
    obtain ⟨rfl, rfl⟩ := List.cons.inj hc
    exact ⟨_, _, _, lexeme_comment _⟩

theorem Context.isText_of_admits {here : Context} {t : Text} (h : here.admits t = true) :
    here.isText = true := by
  cases here <;> first | rfl | cases h

section Follows

variable {b : Assembly} {final : Context} {n : Node} {nodes : List Node} {s : Spelled}

/-- What follows a list follows its last nodes. -/
theorem Assembly.Follows.tail (h : b.Follows final (n :: nodes) s) :
    (b.lay n).Follows final nodes s := by
  have hlast {p : Node → Bool} (hp : nodes.getLast?.any p = true) :
      (n :: nodes).getLast?.any p = true := by
    cases nodes with
    | nil => cases hp
    | cons m nodes => exact hp
  refine ⟨fun ht => h.text (hlast ht), h.name, fun hc hv => ?_⟩
  obtain ⟨hs, hclear⟩ := h.value hc (hlast hv)
  refine ⟨hs, fun ht => ?_⟩
  obtain ⟨htag, hcomment⟩ := hclear ht
  exact ⟨Assembly.lay_tag_eq_none htag n, Assembly.lay_comment_eq_none hcomment n⟩

/-- Among attributes, a canonical node ends what is before it, but for a value before a command. -/
theorem Node.ends_spell (h : n.canonicalIn .beforeAttrName = true) (s : Spelled) :
    (n.spell true s).endsName = true
      ∧ ((∃ f, n = .flow f) ∨ (n.spell true s).endsValue = true ∧ (n.spell true s).text ≠ []) := by
  cases n with
  | attr id loc name value =>
    cases value <;>
    · rw [Node.spell]
      exact ⟨rfl, .inr ⟨rfl, by simp⟩⟩
  | flow f =>
    rw [Node.spell]
    exact ⟨rfl, .inl ⟨f, rfl⟩⟩
  | raw id loc t =>
    rw [Node.canonicalIn, Bool.and_eq_true] at h
    cases h.2
  | closeTag id loc name => simp [Node.canonicalIn] at h
  | call id loc callee params =>
    rw [Node.canonicalIn, Bool.and_eq_true] at h
    cases h.1
  | openTag id loc name children selfClosing =>
    simp only [Node.canonicalIn, Bool.and_eq_true] at h
    cases h.1.1.1
  | comment id loc children =>
    rw [Node.canonicalIn, Bool.and_eq_true] at h
    cases h.1
  | _ =>
    rw [Node.canonicalIn] at h
    cases h

/-- **The rest of a canonical list may follow its first node.** -/
theorem Assembly.Follows.head (h : b.Follows final (n :: nodes) s)
    (hn : canonicalFrom final b.context (n :: nodes) = true) (spaced : Bool)
    (hspaced : b.context = .beforeAttrName → spaced = true) :
    b.Follows b.context [n] (spell spaced nodes s) := by
  simp only [canonicalFrom, Bool.and_eq_true] at hn
  obtain ⟨⟨hhere, hprecede⟩, hrest⟩ := hn
  have hraw (hr : n.rawText?.isSome = true) :
      Assembly.contextAfter? b.context n = none ∧ b.context.isText = true := by
    cases n with
    | raw id loc t =>
      rw [Node.canonicalIn, Bool.and_eq_true] at hhere
      exact ⟨rfl, Context.isText_of_admits hhere.2⟩
    | _ => cases hr
  have hattrs (hc : b.context = .beforeAttrName) : Assembly.contextAfter? b.context n = none := by
    rw [hc]
    exact Assembly.contextAfter?_eq_none (by simp) (by simp) n
  cases nodes with
  | nil =>
    rw [canonicalFrom, beq_iff_eq] at hrest
    rw [spell]
    refine ⟨fun ht => ?_, fun hc => ?_, fun hc hv => ?_⟩
    · rw [(hraw ht).1] at hrest
      obtain rfl : b.context = final := hrest
      exact h.text ht
    · rw [hattrs hc] at hrest
      exact h.name (hrest.symm.trans hc)
    · rw [hattrs hc] at hrest
      exact h.value (hrest.symm.trans hc) hv
  | cons m nodes =>
    simp only [canonicalFrom, Bool.and_eq_true] at hrest
    rw [spell]
    refine ⟨fun ht => ?_, fun hc => ?_, fun hc hv => ?_⟩
    · obtain ⟨hnone, htext⟩ := hraw ht
      rw [hnone] at hrest
      have hm : m.rawText? = none := by
        cases m with
        | raw id loc t =>
          have : n.rawText?.isNone = true := hprecede
          have ht' : n.rawText?.isSome = true := ht
          cases hr : n.rawText? <;> rw [hr] at this ht'
          · cases ht'
          · cases this
        | _ => rfl
      exact m.breaks_spell hrest.1.1 htext hm _ _
    · rw [hattrs hc, Option.getD_none, hc] at hrest
      rw [hspaced hc]
      exact (Node.ends_spell hrest.1.1 _).1
    · rw [hattrs hc, Option.getD_none, hc] at hrest
      rw [hspaced hc]
      rcases (Node.ends_spell hrest.1.1 (spell (true || m.givesAttribute) nodes s)).2 with
        ⟨f, rfl⟩ | ⟨hends, htext⟩
      · have hv' : n.endsBare = true := hv
        have : (!n.endsBare) = true := hprecede
        rw [hv'] at this
        cases this
      · exact ⟨hends, fun ht => absurd ht htext⟩

end Follows

/-! ## 2. Control flow -/

open Assembly

/-- Control flow whose branches are read back is placed as it stands. -/
theorem feedNode_flow {b : Assembly} {f g : Flow} (hb : b.context.isBetween = true)
    (h : (rewriteFlow b.ledger b.context g).1.bare = f.bare
      ∧ (rewriteFlow b.ledger b.context g).2.1 = b.context
      ∧ (rewriteFlow b.ledger b.context g).2.2.Alike b.ledger) :
    (feedNode b (.flow g)).Alike (b.lay (.flow f)) := by
  obtain ⟨hflow, hexit, hledger⟩ := h
  rw [feedNode, settle_of_isSettled (isSettled_of_isBetween hb)]
  dsimp only
  rw [hexit]
  have hsame : ({ b with ledger := (rewriteFlow b.ledger b.context g).2.2 } : Assembly).Alike b :=
    (Alike.refl b).setLedger hledger
  refine (reach_alike _ _).trans ((hsame.placeFlow hflow b.context).trans ?_)
  have hnone : contextAfter? b.context (.flow f) = none := rfl
  unfold lay placeFlow
  rw [hnone]
  split
  · next hc => simp [hc, Context.isBetween, Context.isText] at hb
  · next hc =>
    rw [if_pos hc]
    exact enter_alike _ _ _
  · next hc =>
    rw [if_neg hc]
    exact enter_alike _ _ _

/-! ## 3. Lists -/

section Apart

variable {b : Assembly} {n : Node}

/-- The nodes do not begin with text where text stands before them. -/
def Assembly.Apart (b : Assembly) (nodes : List Node) : Prop :=
  ∀ n ∈ nodes.head?, n.rawText?.isSome = true → ∀ m ∈ b.content.head?, m.rawText? = none

theorem Assembly.Apart.tail {final : Context} {nodes : List Node}
    (hn : canonicalFrom final b.context (n :: nodes) = true) : (b.lay n).Apart nodes := by
  simp only [canonicalFrom, Bool.and_eq_true] at hn
  obtain ⟨⟨hhere, hprecede⟩, hrest⟩ := hn
  intro m hm hraw
  cases nodes with
  | nil => cases hm
  | cons k nodes =>
    obtain rfl : k = m := Option.some.inj hm
    cases k with
    | raw id loc t =>
      simp only [canonicalFrom, Node.canonicalIn, Bool.and_eq_true] at hrest
      have htext : b.context.isText = true :=
        isText_of_lay (Context.isText_of_admits hrest.1.1.2)
      rw [content_lay htext]
      intro m hm
      obtain rfl : n = m := Option.some.inj hm
      exact Option.isNone_iff_eq_none.mp hprecede
    | _ => cases hraw

/-- Among attributes no text stands. -/
theorem Assembly.apart_of_attrs {nodes : List Node} {final : Context}
    (hn : canonicalFrom final .beforeAttrName nodes = true) : b.Apart nodes := by
  intro m hm hraw
  cases nodes with
  | nil => cases hm
  | cons k nodes =>
    obtain rfl : k = m := Option.some.inj hm
    cases k with
    | raw id loc t =>
      simp only [canonicalFrom, Node.canonicalIn, Bool.and_eq_true] at hn
      cases hn.1.1.2
    | _ => cases hraw

end Apart

mutual

/-- **A node is read back.** -/
theorem Node.readOn_spell : ∀ (n : Node) {b : Assembly} {spaced : Bool} {s : Spelled},
    n.canonicalIn b.context = true → b.Ready → b.Follows b.context [n] s →
    (b.context = .beforeAttrName → spaced = true) →
    b.ledger.depth + n.flowDepth ≤ b.ledger.config.maxDepth → b.Apart [n] →
    (b.readOn (n.spell spaced s)).EndsAlike ((b.lay n).readOn s)
  | .raw id loc t, b, spaced, s, h, _, hs, _, _, hapart => by
    rw [Node.canonicalIn, Bool.and_eq_true] at h
    have htext := Context.isText_of_admits h.2
    rw [Node.spell]
    refine Alike.endsAlike ((readOn_text ?_ h.2 (hs.text rfl)).trans (Alike.readOn ?_ s))
    · rintro rfl
      cases h.1
    · exact addText_alike htext (hapart _ rfl rfl) id loc t
  | .print id loc e, b, spaced, s, h, _, _, _, _, _ => by
    rw [Node.canonicalIn] at h
    rw [Node.spell]
    refine Alike.endsAlike ((readOn_after rfl).trans (Alike.readOn ?_ s))
    rw [feedNode, place_of_text h rfl]
    · exact (reach_alike _ _).trans (Alike.lay (by rw [Node.bare, Node.bare]))
    all_goals simp
  | .call id loc callee params, b, spaced, s, h, _, _, _, _, _ => by
    rw [Node.canonicalIn, Bool.and_eq_true, List.isEmpty_iff] at h
    obtain ⟨h, rfl⟩ := h
    rw [Node.spell, bareParams]
    refine Alike.endsAlike ((readOn_after rfl).trans (Alike.readOn ?_ s))
    rw [feedNode, rewriteParams]
    dsimp only
    rw [place_of_text h rfl]
    exact (reach_alike _ _).trans (Alike.lay (by rw [Node.bare, Node.bare, bareParams]))
  | .binding .., b, spaced, s, h, _, _, _, _, _
  | .attrValue .., b, spaced, s, h, _, _, _, _, _ => by
    rw [Node.canonicalIn] at h
    cases h
  | .flow f, b, spaced, s, h, _, _, hspaced, hdepth, _ => by
    rw [Node.canonicalIn, Bool.and_eq_true] at h
    rw [Node.flowDepth] at hdepth
    rw [Node.spell]
    refine Alike.endsAlike ((readOn_after rfl).trans (Alike.readOn ?_ s))
    exact feedNode_flow h.1 (f.rewrite_spelled h.1 h.2 hspaced (by omega))
  | .openTag id loc name children selfClosing, b, spaced, s, h, hready, _, _, hdepth, _ => by
    simp only [Node.canonicalIn, Bool.and_eq_true, beq_iff_eq] at h
    obtain ⟨⟨⟨hb, hname⟩, hchildren⟩, hself⟩ := h
    have hclosed : b.Closed := by
      unfold Ready at hready
      rwa [hb] at hready
    rw [Node.flowDepth] at hdepth
    rw [Node.spell]
    have hfollows : (b.inTag false name []).Follows .beforeAttrName children
        (s.lead (if selfClosing then "/>" else ">").toList) := by
      refine ⟨fun _ => ?_, fun _ => ?_, fun _ hbare => ?_⟩
      · rintro c cs hc
        cases selfClosing <;>
        · obtain ⟨rfl, rfl⟩ := List.cons.inj hc
          exact ⟨_, _, _, by exact (by rfl)⟩
      · cases selfClosing <;> rfl
      · cases selfClosing with
        | false => exact ⟨rfl, fun ht => by cases ht⟩
        | true =>
          rw [hbare] at hself
          cases hself
    have hready' : (b.inTag false name []).Ready := ⟨rfl, hclosed.2.1, hclosed.2.2.1, hclosed.2.2.2⟩
    have hends : (spell true children
        (s.lead (if selfClosing then "/>" else ">").toList)).endsName = true := by
      cases children with
      | nil => exact hfollows.name rfl
      | cons m children =>
        simp only [canonicalFrom, Bool.and_eq_true] at hchildren
        rw [spell]
        exact (Node.ends_spell hchildren.1.1 _).1
    refine (readOn_tagStart false [] hname ?_ hends).trans ?_
    · rw [hb]
      exact lexeme_openTag hname _
    · refine (readOn_spell children hchildren hready' hfollows (fun _ => rfl) hdepth
        (apart_of_attrs hchildren)).trans ?_
      · rw [layAll_of_tag children rfl rfl, List.append_nil]
        exact (readOn_openTagEnd hb hclosed children selfClosing id loc).endsAlike
  | .closeTag id loc name, b, spaced, s, h, hready, _, _, _, _ => by
    simp only [Node.canonicalIn, Bool.and_eq_true] at h
    obtain ⟨hname, hhere⟩ := h
    unfold Ready at hready
    have hlead : "</".toList = ['<', '/'] := rfl
    rw [Node.spell, hlead]
    cases hb : b.context with
    | pcdata =>
      rw [hb] at hready hhere
      refine (readOn_tagStart true ['/'] hname ?_ (by exact rfl)).trans
        (readOn_closeTagEnd ?_ (.inl hb) hready id loc).endsAlike
      · rw [hb]
        exact lexeme_closeTag hname _
      · rw [hb]
        exact Option.isNone_iff_eq_none.mp hhere
    | rcdata e =>
      rw [hb] at hready hhere
      have he : name.rcdata? = some e := beq_iff_eq.mp hhere
      refine (readOn_tagStart true ['/'] hname ?_ (by exact rfl)).trans
        (readOn_closeTagEnd ?_ (.inr ⟨e, hb⟩) hready id loc).endsAlike
      · rw [hb]
        exact lexeme_closeRcdata he s
      · rw [hb]
        exact he
    | _ =>
      rw [hb] at hhere
      cases hhere
  | .attr id loc name none, b, spaced, s, h, hready, hs, hspaced, _, _ => by
    rw [Node.canonicalIn, Bool.and_eq_true, beq_iff_eq] at h
    rw [Node.spell, hspaced h.1]
    exact readOn_attr h.1 hready h.2 (hs.name h.1) id loc
  | .attr id loc name (some value), b, spaced, s, h, hready, hs, hspaced, hdepth, _ => by
    simp only [Node.canonicalIn, Bool.and_eq_true, beq_iff_eq] at h
    obtain ⟨⟨hb, hname⟩, hvalue⟩ := h
    rw [Node.flowDepth] at hdepth
    rw [Node.spell, hspaced hb]
    exact (readOn_equals hb hready hname).endsAlike.trans
      (value.readOn_value hvalue hb hready (fun _ _ _ hv => hs.value hb (by rw [hv]; rfl)) hdepth
        id loc)
  | .comment id loc children, b, spaced, s, h, hready, _, _, hdepth, _ => by
    rw [Node.canonicalIn, Bool.and_eq_true, beq_iff_eq] at h
    obtain ⟨hb, hchildren⟩ := h
    have hclosed : b.Closed := by
      unfold Ready at hready
      rwa [hb] at hready
    rw [Node.flowDepth] at hdepth
    have hfollows : (b.inComment []).Follows .comment children (s.lead "-->".toList) := by
      refine ⟨fun _ => ?_, (fun hc => by cases hc), (fun hc => by cases hc)⟩
      rintro c cs hc
      obtain ⟨rfl, rfl⟩ := List.cons.inj hc
      exact ⟨_, _, _, lexeme_commentEnd s.text⟩
    have hapart : (b.inComment []).Apart children := by
      intro n _ _ m hm
      have hempty : (b.inComment []).content = [] := by
        unfold content inComment
        rw [hclosed.2.2.1]
      rw [hempty] at hm
      cases hm
    rw [Node.spell]
    refine (readOn_commentStart hb).endsAlike.trans ?_
    have hready' : (b.inComment []).Ready := trivial
    refine (readOn_spell children hchildren hready' hfollows (fun hc => by cases hc) hdepth
      hapart).trans ?_
    rw [layAll_of_comment children rfl rfl, List.append_nil]
    exact (readOn_commentEnd hb hclosed children id loc).endsAlike

theorem Node.readOn_value : ∀ (v : Node) {b : Assembly} {name : Node} {s : Spelled},
    v.canonicalValue = true → b.context = .beforeAttrName → b.Ready →
    (∀ id loc children, v = .attrValue id loc .bare children →
      s.endsValue = true ∧ (s.text = [] → b.tag = none ∧ b.comment = none)) →
    b.ledger.depth + v.flowDepth ≤ b.ledger.config.maxDepth → ∀ (id : NodeId) (loc : Span),
    ((b.awaiting name).readOn (v.spell false s)).EndsAlike
      ((b.lay (.attr id loc name (some v))).readOn s)
  | .attrValue id' loc' quotes children, b, name, s, h, hb, hready, hs, hdepth, id, loc => by
    rw [Node.canonicalValue, Bool.and_eq_true] at h
    rw [Node.flowDepth] at hdepth
    have hlist {t : Spelled} (ht : (Context.attrValue quotes).Breaks t.text) :
        ((b.valuing name quotes []).readOn (spell false children t)).EndsAlike
          ((b.valuing name quotes children.reverse).readOn t) := by
      have hlay : (b.valuing name quotes []).layAll children
          = b.valuing name quotes children.reverse := by
        rw [layAll_of_value quotes children (by exact rfl) (by exact rfl),
          List.append_nil]
        rfl
      rw [← hlay]
      refine readOn_spell children h.2 trivial ⟨fun _ => ht, fun hc => ?_, fun hc => ?_⟩
        (fun hc => ?_) hdepth (fun n _ _ m hm => ?_)
      · cases hc
      · cases hc
      · cases hc
      · cases hm
    rw [Node.spell]
    cases hq : quotes.char? with
    | some quote =>
      have hbreaks : (Context.attrValue quotes).Breaks (s.lead [quote]).text := by
        rintro c cs hc
        obtain ⟨rfl, rfl⟩ := List.cons.inj hc
        cases quotes <;> cases hq <;> exact ⟨_, _, _, by exact (by rfl)⟩
      refine (readOn_quote hq).endsAlike.trans ((hlist hbreaks).trans ?_)
      exact (readOn_unquote hq hb hready id id' loc loc').endsAlike
    | none =>
      obtain rfl : quotes = .bare := by cases quotes <;> first | rfl | cases hq
      obtain ⟨hends, hclear⟩ := hs id' loc' children rfl
      have hbreaks : (Context.attrValue .bare).Breaks s.text := by
        rintro c cs hc
        unfold Spelled.endsValue at hends
        simp only [hc, Bool.not_eq_true'] at hends
        exact ⟨.valueEnd, .beforeAttrName, 0, if_neg (by rw [hends]; simp)⟩
      refine (readOn_bare h.1 h.2).endsAlike.trans ((hlist hbreaks).trans ?_)
      have hclose := endsAlike_closeValue (b := b.valuing name .bare children.reverse) rfl rfl rfl
        hends hclear
      refine hclose.trans ?_
      refine Alike.endsAlike (Alike.readOn ?_ s)
      exact closeValue_valuing hb hready .bare children 0 id id' loc loc'
  | .raw .., b, name, s, h, _, _, _, _, _, _ | .print .., b, name, s, h, _, _, _, _, _, _
  | .call .., b, name, s, h, _, _, _, _, _, _ | .binding .., b, name, s, h, _, _, _, _, _, _
  | .flow _, b, name, s, h, _, _, _, _, _, _ | .openTag .., b, name, s, h, _, _, _, _, _, _
  | .closeTag .., b, name, s, h, _, _, _, _, _, _ | .attr .., b, name, s, h, _, _, _, _, _, _
  | .comment .., b, name, s, h, _, _, _, _, _, _ => by
    rw [Node.canonicalValue] at h
    · cases h
    all_goals simp

/-- **A list is read back.** -/
theorem readOn_spell : ∀ (nodes : List Node) {b : Assembly} {spaced : Bool} {final : Context}
    {s : Spelled}, canonicalFrom final b.context nodes = true → b.Ready →
    b.Follows final nodes s → (b.context = .beforeAttrName → spaced = true) →
    b.ledger.depth + flowDepth nodes ≤ b.ledger.config.maxDepth → b.Apart nodes →
    (b.readOn (spell spaced nodes s)).EndsAlike ((b.layAll nodes).readOn s)
  | [], b, spaced, final, s, _, _, _, _, _, _ => by
    rw [spell]
    exact (Alike.refl _).endsAlike
  | n :: nodes, b, spaced, final, s, h, hready, hs, hspaced, hdepth, hapart => by
    have hspaced' (hc : b.context = .beforeAttrName) : (spaced || n.givesAttribute) = true := by
      rw [hspaced hc, Bool.true_or]
    have hhead := hs.head h (spaced || n.givesAttribute) hspaced'
    have hapart' : (b.lay n).Apart nodes := Apart.tail h
    simp only [canonicalFrom, Bool.and_eq_true] at h
    rw [flowDepth] at hdepth
    rw [spell, layAll_cons]
    refine (n.readOn_spell h.1.1 hready hhead hspaced (by omega) ?_).trans
      (readOn_spell nodes h.2 (hready.lay n) hs.tail ?_ ?_ hapart')
    · intro m hm
      obtain rfl : n = m := Option.some.inj hm
      exact hapart n rfl
    · exact fun hc => hspaced' (context_of_lay hc)
    · rw [lay_ledger]
      omega

theorem Flow.rewrite_spelled : ∀ (f : Flow) {spaced : Bool} {l : Ledger} {here : Context},
    here.isBetween = true → f.canonicalIn here = true → (here = .beforeAttrName → spaced = true) →
    l.depth + 1 + f.flowDepth ≤ l.config.maxDepth →
    (rewriteFlow l here (f.spelled spaced)).1.bare = f.bare
      ∧ (rewriteFlow l here (f.spelled spaced)).2.1 = here
      ∧ (rewriteFlow l here (f.spelled spaced)).2.2.Alike l
  | ⟨id, loc, head, branches⟩, spaced, l, here, hhere, h, hspaced, hdepth => by
    rw [Flow.canonicalIn] at h
    rw [Flow.flowDepth] at hdepth
    obtain ⟨hbranches, hexits, hledger⟩ := rewrite_spelledBranches branches
      (l := { l with depth := l.depth + 1 }) (default : Span).start hhere h hspaced hdepth
    have hback := hledger.setDepth l.depth
    rw [Flow.spelled, rewriteFlow]
    dsimp only
    rw [if_neg (by omega), reconcile_of_same _ _ _ _ hexits]
    exact ⟨by rw [Flow.bare, Flow.bare, hbranches], rfl, hback⟩

theorem rewrite_spelledBranches : ∀ (branches : List Branch) {spaced : Bool} {l : Ledger}
    {here : Context} (offset : Nat), here.isBetween = true →
    canonicalBranches here branches = true → (here = .beforeAttrName → spaced = true) →
    l.depth + branchesFlowDepth branches ≤ l.config.maxDepth →
    bareBranches (rewriteBranches l here offset (spelledBranches spaced branches)).1
        = bareBranches branches
      ∧ (∀ e ∈ (rewriteBranches l here offset (spelledBranches spaced branches)).2.1, e.2 = here)
      ∧ (rewriteBranches l here offset (spelledBranches spaced branches)).2.2.Alike l
  | [], spaced, l, here, offset, _, _, _, _ => by
    rw [spelledBranches, rewriteBranches]
    exact ⟨rfl, (fun e he => by cases he), rfl⟩
  | branch :: branches, spaced, l, here, offset, hhere, h, hspaced, hdepth => by
    rw [canonicalBranches, Bool.and_eq_true] at h
    rw [branchesFlowDepth] at hdepth
    obtain ⟨hb, hexit, hl⟩ := branch.rewrite_spelled (l := l) offset hhere h.1 hspaced (by omega)
    rw [spelledBranches, rewriteBranches]
    dsimp only
    generalize rewriteBranch l here offset (branch.spelled spaced) = r at *
    obtain ⟨hbs, hexits, hl'⟩ := rewrite_spelledBranches branches (l := r.2.2) offset hhere h.2
      hspaced (by rw [hl.depth, hl.config]; omega)
    refine ⟨by rw [bareBranches, bareBranches, hb, hbs], ?_, hl'.trans hl⟩
    intro e he
    rcases List.mem_cons.mp he with rfl | he
    · exact hexit
    · exact hexits e he

theorem Branch.rewrite_spelled : ∀ (branch : Branch) {spaced : Bool} {l : Ledger}
    {here : Context} (offset : Nat), here.isBetween = true → branch.canonicalIn here = true →
    (here = .beforeAttrName → spaced = true) → l.depth + branch.flowDepth ≤ l.config.maxDepth →
    (rewriteBranch l here offset (branch.spelled spaced)).1.bare = branch.bare
      ∧ (rewriteBranch l here offset (branch.spelled spaced)).2.1 = here
      ∧ (rewriteBranch l here offset (branch.spelled spaced)).2.2.Alike l
  | ⟨id, kind, nodes⟩, spaced, l, here, offset, hhere, h, hspaced, hdepth => by
    rw [Branch.canonicalIn] at h
    rw [Branch.flowDepth] at hdepth
    obtain ⟨hclosed, hready⟩ := ready_start l.countBranch here hhere true offset
    have hfollows : (start l.countBranch here true offset).Follows here nodes .done :=
      ⟨fun _ => here.breaks_nil, fun _ => rfl, fun _ _ => ⟨rfl, fun _ => ⟨rfl, rfl⟩⟩⟩
    have hapart : (start l.countBranch here true offset).Apart nodes := by
      intro n _ _ m hm
      have hempty : (start l.countBranch here true offset).content = [] := by
        unfold content start
        cases here <;> rfl
      rw [hempty] at hm
      cases hm
    have hread := readOn_spell nodes (by exact h) hready hfollows hspaced (by exact hdepth) hapart
    rw [readOn_done, layAll_of_closed nodes hclosed (by exact h)] at hread
    have hend := (alike_readOn (start l.countBranch here true offset)
      (spell spaced nodes .done)).endBranch.trans hread.1
    have hdone := endBranch_of_closed (b := { start l.countBranch here true offset with
      out := nodes.reverse ++ (start l.countBranch here true offset).out
      context := here }) hclosed (isSettled_of_isBetween hhere)
    rw [hdone] at hend
    rw [Branch.spelled, rewriteBranch]
    refine ⟨?_, hend.context, hend.ledger⟩
    dsimp only
    rw [Branch.bare, Branch.bare, hend.nodes]
    simp [Assembly.nodes, start]

end

/-! ## 4. Blocks -/

/-- At the end of a block that is read from its flattened form, the nodes are those of the list. -/
theorem endBlock_flatten {nodes : List Node} (h : isCanonical nodes = true) {l : Ledger}
    (hdepth : l.depth + flowDepth nodes ≤ l.config.maxDepth) (offset : Nat) (block : BlockKind) :
    ((feedNodes (.start l .pcdata false offset) none (flatten nodes)).endBlock block).Alike
      { start l .pcdata false offset with out := nodes.reverse } := by
  obtain ⟨hclosed, hready⟩ := ready_start l .pcdata rfl false offset
  have hfollows : (start l .pcdata false offset).Follows .pcdata nodes .done :=
    ⟨fun _ => Context.breaks_nil _, fun _ => rfl, fun _ _ => ⟨rfl, fun _ => ⟨rfl, rfl⟩⟩⟩
  have hapart : (start l .pcdata false offset).Apart nodes := fun _ _ _ _ hm => by cases hm
  have hread : ((start l .pcdata false offset).readOn (spell false nodes .done)).EndsAlike _ :=
    readOn_spell nodes h hready hfollows (fun hc => by cases hc) hdepth hapart
  rw [readOn_done, layAll_of_closed nodes hclosed h] at hread
  have hend := ((alike_readOn (start l .pcdata false offset) (spell false nodes .done)).endBlock
    block).trans (hread.2 block)
  have hdone := endBlock_of_closed (b := { start l .pcdata false offset with
    out := nodes.reverse ++ (start l .pcdata false offset).out
    context := .pcdata }) hclosed rfl (.inl rfl) block
  rw [hdone] at hend
  refine hend.trans ?_
  simp [start, Alike]

/-- A canonical list is rewritten from its flattened form to itself, as a block of any kind. -/
theorem rewriteBlock_flatten {nodes flat : List Node} (h : isCanonical nodes = true)
    (hflat : bare flat = bare (flatten nodes)) {config : Config}
    (hdepth : flowDepth nodes ≤ config.maxDepth) (block : BlockKind) (loc : Span) (ids : IdSource) :
    (rewriteBlock config .html block loc ids flat).diagnostics = []
      ∧ bare (rewriteBlock config .html block loc ids flat).result = bare nodes := by
  obtain ⟨hresult, hfaults⟩ := rewriteBlock_alike hflat config .html block loc loc ids ids
  have hend := endBlock_flatten h (l := (Ledger.start config ids).countBlock)
    (by exact (Nat.zero_add _).symm ▸ hdepth) loc.start block
  have hnodes :
      bare (rewriteBlock config .html block loc ids (flatten nodes)).result = bare nodes := by
    unfold rewriteBlock
    rw [rewriteValue]
    exact hend.nodes.trans (by simp [Assembly.nodes])
  have hquiet : (rewriteBlock config .html block loc ids (flatten nodes)).diagnostics = [] := by
    unfold rewriteBlock
    rw [rewriteValue]
    have hbare : List.map Diagnostic.bare _ = [] := congrArg Ledger.diagnostics hend.ledger
    exact List.reverse_eq_nil_iff.mpr (List.map_eq_nil_iff.mp hbare)
  rw [hquiet] at hfaults
  exact ⟨List.map_eq_nil_iff.mp hfaults, hresult.trans hnodes⟩

/-- **Rewriting undoes flattening.**  A template that holds the flattened form of a canonical list,
under whatever names and at whatever places, is rewritten to one that holds the list itself, but for
names and places, and nothing is reported.  Control flow may be nested as deep as the config lets
it. -/
theorem Template.rewrite_flatten {t : Template} (hkind : t.kind = .html) {nodes : List Node}
    (h : isCanonical nodes = true) (hflat : bare t.nodes = bare (flatten nodes)) {config : Config}
    (hdepth : flowDepth nodes ≤ config.maxDepth) (ids : IdSource) :
    (t.rewrite config ids).diagnostics = []
      ∧ bare (t.rewrite config ids).result.nodes = bare nodes := by
  unfold Template.rewrite
  rw [hkind]
  exact rewriteBlock_flatten h hflat hdepth .template t.location ids

/-- The tree of `<a b="x{$y}"{if $c} {$n}=e{/if}>{call .z /}</a><!--k--><script>1<2</script>`. -/
def linkAndScript : List Node :=
  [.openTag default default (.raw default default ['a'])
    [.attr default default (.raw default default ['b']) (some (.attrValue default default .double
        [.raw default default ['x'], .print default default "$y".toList])),
      .flow ⟨default, default, .ifThen, [⟨default, .cond "$c".toList,
        [.attr default default (.print default default "$n".toList)
          (some (.attrValue default default .bare [.raw default default ['e']]))]⟩]⟩] false,
    .call default default ".z".toList [],
    .closeTag default default (.raw default default ['a']),
    .comment default default [.raw default default ['k']],
    .openTag default default (.raw default default "script".toList) [] false,
    .raw default default "1<2".toList,
    .closeTag default default (.raw default default "script".toList)]

theorem Template.rewrite_flatten_linkAndScript :
    isCanonical linkAndScript = true
      ∧ (Template.rewrite {} (.startingAt 0)
        ⟨default, default, ['t'], .html, [], flatten linkAndScript⟩).diagnostics = []
      ∧ bare (Template.rewrite {} (.startingAt 0)
        ⟨default, default, ['t'], .html, [], flatten linkAndScript⟩).result.nodes
          = bare linkAndScript := by
  have hcanonical : isCanonical linkAndScript = true := by decide +kernel
  have hdepth : flowDepth linkAndScript ≤ (256 : Nat) := by decide +kernel
  exact ⟨hcanonical, Template.rewrite_flatten rfl hcanonical rfl hdepth (.startingAt 0)⟩

end TemplateMarkup
