/-
# Tracing nodes and ends

Nodes that are placed and drafts that are closed at the end leave lasting nodes, as marks do.  So
the nodes of a branch are lasting up to the context in which it ends
(`Assembly.Traced.lasting_endBranch`), and those of a block are lasting unless it ends in the body
of an element (`Assembly.Traced.lasting_endBlock`).
-/
import TemplateMarkup.Proofs.Html.Traced

namespace TemplateMarkup

namespace Assembly

/-! ## 1. Placing -/

section Placing

variable {room : Nat} {b : Assembly} {n : Node} {held rest t : Text}

/-- In a branch that begins in a comment or a value no node stands that is met again. -/
theorem traced_of_other (he : b.entry.isContent = false) (he' : b.entry.isInTag = false) :
    b.Traced room held rest where
  content := fun h => by rw [h] at he; cases he
  attrs := fun h => by rw [h] at he'; cases he'
  slot := fun h => by rw [h] at he'; cases he'

theorem placeContent_of_isContent (hb : b.context.isContent = true) (n : Node) :
    (b.placeContent n).out = n :: b.out
      ∧ (b.placeContent n).context = (contextAfter? b.context n).getD b.context
      ∧ ((contextAfter? b.context n).getD b.context).isContent = true := by
  have hout : b.addContent n = { b with out := n :: b.out } := by
    rw [addContent, content_of_isContent hb, setContent_of_isContent hb]
  unfold placeContent
  cases hnext : contextAfter? b.context n with
  | none =>
    dsimp only
    rw [hout]
    exact ⟨rfl, rfl, hb⟩
  | some next =>
    dsimp only
    rw [hout]
    exact ⟨enter_out .., enter_context .., (isContent_of_contextAfter? hnext).2⟩

/-- Where the value stands that a branch stands for, nodes stay among attributes. -/
theorem TracedSlot.addAmongAttrs (h : b.TracedSlot room) (hcoh : b.Coherent t)
    (he : b.entry = .beforeAttrValue) (hn : n.StaysAmong room) :
    (b.addAmongAttrs n).TracedSlot room := by
  have hstand := h.standing he
  refine (hstand.addAmongAttrs hcoh n).tracedSlot fun hb hd => ?_
  rw [addAmongAttrs_context] at hb
  have hadd : b.addAmongAttrs n = b.addOut n := by
    unfold Assembly.addAmongAttrs
    rw [(hstand.tag hcoh).1]
  rw [hadd] at hd ⊢
  obtain ⟨hd', hdn⟩ := durableOut_of_cons hd
  exact lastingOut?_cons (h.waiting hb hd') hn.1 (hn.2 hdn)

/-- A node stays among attributes. -/
theorem Traced.addAmongAttrs (h : b.Traced room held rest) (hcoh : b.Coherent t)
    (hb : b.context.isInTag = true) (hn : n.StaysAmong room) (held' rest' : Text) :
    (b.addAmongAttrs n).Traced room held' rest' := by
  have hamong : b.context.isAmongAttrs = true := by
    cases hx : b.context <;> rw [hx] at hb <;> first | rfl | cases hb
  by_cases he : b.entry = .beforeAttrValue
  · exact traced_of_slot ((addAmongAttrs_entry ..).trans he) ((h.slot he).addAmongAttrs hcoh he hn)
  · exact h.of_addsAmong hcoh he (addsAmong_addAmongAttrs b hn) hamong
      (by rw [addAmongAttrs_context]; exact hamong)

/-- A node is placed between attributes. -/
theorem Traced.placeInTag (h : b.Traced room held rest) (hcoh : b.Coherent t)
    (hb : b.context = .beforeAttrName) (hn : n.isPrinting = false → n.StaysAmong room)
    (hc : (b.placeInTag n).Clean) (held' rest' : Text) :
    (b.placeInTag n).Traced room held' rest' := by
  unfold Assembly.placeInTag at hc ⊢
  split
  · next hp =>
    rw [if_pos hp] at hc
    by_cases he : b.entry = .beforeAttrValue
    · -- a value is there already, and no attribute may follow it
      exact absurd ((extends_enter ..).clean hc)
        (((h.slot he).standing he).not_clean_openAttr hcoh hb _ _ _)
    · exact h.of_addsAmong hcoh he ((addsAmong_openAttr ..).trans (addsAmong_enter ..))
        (by rw [hb]; rfl) (by rw [enter_context]; rfl)
  · next hp => exact h.addAmongAttrs hcoh (by rw [hb]; rfl) (hn (by simpa using hp)) _ _

/-- What waits for a value gets it. -/
theorem Traced.fillSlot (h : b.Traced room held rest) (hcoh : b.Coherent t)
    (hb : b.context = .beforeAttrValue) (value : Node) (stop : Nat) (held' rest' : Text) :
    (b.fillSlot value stop).Traced room held' rest' := by
  unfold Assembly.fillSlot
  by_cases he : b.entry = .beforeAttrValue
  · have hstand := ((h.slot he).standing he).giveValue value stop stop
    exact traced_of_slot hstand.entry (hstand.tracedSlot fun hb' => by
      cases (enter_context ..).symm.trans hb')
  · have hattr : b.attr.isSome = true := by
      have := hcoh
      unfold Coherent at this
      rw [hb] at this
      generalize b.tag = tag, b.attr = attr, b.value = value, b.comment = comment at this
      cases this with
      | content _ hh => cases hh
      | beforeValue ht ha =>
        cases attr with
        | none => exact absurd ha he
        | some attr => rfl
    exact h.of_addsAmong hcoh he ((addsAmong_giveValue _ _ _ hattr).trans (addsAmong_enter ..))
      (by rw [hb]; rfl) (by rw [enter_context]; rfl)

/-- An attribute name that is being read ends. -/
theorem Traced.closeAttr {part : NamePart} {sep drop : Bool} (h : b.Traced room held rest)
    (hcoh : b.Coherent t) (hb : b.context = .attrName part sep drop) (stop : Nat)
    (held' rest' : Text) : (b.closeAttr stop).Traced room held' rest' := by
  by_cases he : b.entry = .beforeAttrValue
  · obtain ⟨-, ⟨hb', -⟩ | ⟨quotes, hb'⟩ | ⟨hb', -⟩⟩ := h.slot he <;> cases hb.symm.trans hb'
  · exact h.of_addsAmong hcoh he (addsAmong_closeAttr ..) (by rw [hb]; rfl)
      (by rw [Assembly.closeAttr, enter_context]; rfl)

/-- In a value that is open nodes are not met again. -/
theorem Traced.addContent_of_value {quotes : Quotes} (h : b.Traced room held rest)
    (hcoh : b.Coherent t) (hb : b.context = .attrValue quotes) (n : Node) (held' rest' : Text) :
    (b.addContent n).Traced room held' rest' := by
  have hentry : (b.addContent n).entry = b.entry := setContent_entry ..
  have hcontext : (b.addContent n).context = .attrValue quotes := (addContent_context ..).trans hb
  rcases hcoh.of_value hb with he | ⟨hvalue, -⟩
  · exact traced_of_other (by rw [hentry, he]; rfl) (by rw [hentry, he]; rfl)
  have hadd : ∃ v, b.addContent n = { b with value := v } := by
    obtain ⟨v, hvalue⟩ := Option.isSome_iff_exists.mp hvalue
    unfold addContent setContent
    rw [hb, hvalue]
    exact ⟨_, rfl⟩
  obtain ⟨v, hadd⟩ := hadd
  by_cases he : b.entry = .beforeAttrValue
  · refine traced_of_slot (hentry.trans he) ?_
    rw [hadd]
    exact h.slot he
  · refine h.of_addsAmong hcoh he ?_ (by rw [hb]; rfl) (by rw [hcontext]; rfl)
    rw [hadd]
    exact addsAmong_of_same rfl rfl rfl rfl

/-- In a comment that is open nodes are not met again. -/
theorem Traced.addContent_of_comment (h : b.Traced room held rest) (hcoh : b.Coherent t)
    (hb : b.context = .comment) (n : Node) (held' rest' : Text) :
    (b.addContent n).Traced room held' rest' := by
  obtain ⟨ledger, entry, here, inBranch, out, tag, attr, value, comment, filled, raw, off⟩ := b
  dsimp only at hb
  subst hb
  dsimp only [Coherent] at hcoh
  cases hcoh with
  | content _ hh => cases hh
  | inComment he =>
    subst he
    exact traced_of_other rfl rfl
  | comment he => exact traced_of_comment he rfl rfl fun hd => h.openComment he hd rfl rfl

/-- Where no construct is open a node is finished where it is put. -/
theorem traced_of_finished {b' : Assembly} {next : Context} (h : b.Traced room [] [])
    (hcoh : b.Coherent t) (hb : b.context.isContent = true) (hentry : b'.entry = b.entry)
    (hclosed : b'.Closed) (hout : b'.out = n :: b.out) (hcontext : b'.context = next)
    (hcontent : next.isContent = true) (hraw : n.rawText? = none)
    (hn : n.isDurable = true → n.lastingFrom? room b.context = some next) (rest : Text) :
    b'.Traced room [] rest := by
  obtain ⟨he, hclosed'⟩ := hcoh.of_content hb
  refine traced_of_stretch (by rw [hentry]; exact he) hclosed fun hd => ?_
  rw [hout] at hd ⊢
  rw [hentry, hcontext]
  obtain ⟨hd', hdn⟩ := durableOut_of_cons hd
  exact Stretch.push ((h.stretch he hd' hclosed').lasting (.inl rfl)) hraw (hn hdn) hcontent rest

/-- A node is placed as the name of a tag. -/
theorem Traced.placeTagName (h : b.Traced room [] []) (hcoh : b.Coherent [])
    (hb : b.context = .tagName .empty) (hc : (b.placeTagName n).Clean) (rest : Text) :
    (b.placeTagName n).Traced room [] rest := by
  obtain ⟨he, tag, ht, -⟩ := hcoh.of_tagName hb
  unfold Assembly.placeTagName at hc ⊢
  split at hc
  · next hp =>
    rw [if_pos hp, ht]
    refine traced_of_tag (by rw [enter_entry]; exact he) (enter_tag ..) fun hd => ?_
    rw [enter_out] at hd
    rw [enter_entry, enter_out, enter_context]
    obtain ⟨⟨rest', hstretch, -⟩, hcloses⟩ := h.openTag he hd ht
    refine ⟨⟨rest', hstretch, nofun⟩, fun e hel => ?_⟩
    -- nothing is left that could end the body of an element
    obtain ⟨-, hcloses⟩ := hcloses e hel
    rw [hb] at hcloses
    exact absurd hcloses tag.not_closes_nil
  · exact absurd ((extends_abortTag _).clean ((extends_placeContent ..).clean hc))
      (not_clean_report _ _ _)

/-- A node is placed where a value is due. -/
theorem Traced.placeBeforeValue (h : b.Traced room [] []) (hcoh : b.Coherent [])
    (hb : b.context = .beforeAttrValue) (hn : n.isPrinting = false → n.StaysAmong room)
    (rest : Text) : (b.placeBeforeValue n).Traced room [] rest := by
  have hbare (location : Span) : ({ b with value := some ⟨.bare, location.start, [n]⟩ }.enter
      (.attrValue .bare) location.start).Traced room [] rest := by
    by_cases he : b.entry = .beforeAttrValue
    · have hstand := ((h.slot he).standing he).openValue ⟨.bare, location.start, [n]⟩ .bare
        location.start
      exact traced_of_slot hstand.entry (hstand.tracedSlot fun hb' => by
        cases (enter_context ..).symm.trans hb')
    · refine h.of_addsAmong hcoh he ?_ (by rw [hb]; rfl) (by rw [enter_context]; rfl)
      exact (addsAmong_enter _ _ _).congr rfl rfl rfl rfl
  unfold Assembly.placeBeforeValue
  cases n with
  | print | call => exact hbare _
  | attrValue => exact h.fillSlot hcoh hb _ _ _ _
  | _ => exact h.addAmongAttrs hcoh (by rw [hb]; rfl) (hn rfl) _ _

/-- **A node that reports nothing leaves lasting nodes.** -/
theorem Traced.place (h : b.Traced room [] []) (hcoh : b.Coherent []) (hraw : n.rawText? = none)
    (hn : n.isDurable = true → ∀ here : Context,
      here.isContent = true ∨ here = .beforeAttrName ∧ n.isPrinting = false →
      n.lastingFrom? room here = some ((contextAfter? here n).getD here))
    (hc : (b.place n).Clean) (rest : Text) : (b.place n).Traced room [] rest := by
  have hstays (hp : n.isPrinting = false) : n.StaysAmong room := by
    refine ⟨hraw, fun hd => ?_⟩
    have := hn hd .beforeAttrName (.inr ⟨rfl, hp⟩)
    rwa [contextAfter?_eq_none (by simp) (by simp)] at this
  have hcoh' := hcoh.place n hc
  have hcontent (hb : b.context.isContent = true) (hplace : b.place n = b.placeContent n) :
      (b.place n).Traced room [] rest := by
    obtain ⟨hout, hcontext, hnext⟩ := placeContent_of_isContent hb n
    rw [hplace] at hcoh' ⊢
    exact traced_of_finished h hcoh hb (extends_placeContent ..).entry
      (hcoh'.of_content (by rw [hcontext]; exact hnext)).2 hout hcontext hnext hraw
      (fun hd => hn hd _ (.inl hb)) rest
  have hother (hb : ∀ here, b.context = here → here ≠ .pcdata ∧ ∀ e, here ≠ .rcdata e) :
      b.placeContent n = b.addContent n := by
    unfold placeContent
    rw [contextAfter?_eq_none (hb _ rfl).1 (hb _ rfl).2]
  cases hb : b.context with
  | pcdata | rcdata e | declaration | cdata =>
    exact hcontent (by rw [hb]; rfl) (by unfold Assembly.place; rw [hb])
  | comment =>
    have hplace : b.place n = b.addContent n := by
      rw [← hother (by rintro here rfl; rw [hb]; simp)]
      unfold Assembly.place
      rw [hb]
    rw [hplace]
    exact h.addContent_of_comment hcoh hb n _ _
  | attrValue quotes =>
    have hplace : b.place n = b.addContent n := by
      rw [← hother (by rintro here rfl; rw [hb]; simp)]
      unfold Assembly.place
      rw [hb]
    rw [hplace]
    exact h.addContent_of_value hcoh hb n _ _
  | tagName part =>
    by_cases hpart : part = .empty
    · subst hpart
      have hplace : b.place n = b.placeTagName n := by
        unfold Assembly.place
        rw [hb]
      rw [hplace] at hc ⊢
      exact h.placeTagName hcoh hb hc rest
    · have hplace : b.place n = ((b.reportJoined n).finishTagName.enter .beforeAttrName
          n.location.start).placeInTag n := by
        unfold Assembly.place
        rw [hb]
        cases part <;> first | rfl | exact absurd rfl hpart
      rw [hplace] at hc ⊢
      have hc' := (extends_finishTagName _).clean
        ((extends_enter ..).clean ((extends_placeInTag ..).clean hc))
      obtain ⟨-, hj⟩ := reportJoined_of_clean hc'
      rw [hj] at hc ⊢
      have hfinish : (b.finishTagName.enter .beforeAttrName n.location.start).Traced room [] [] :=
        h.finishTagName hcoh hb hpart _
      exact hfinish.placeInTag (hcoh.finishTagName hb hpart _) (enter_context ..) hstays hc _ _
  | beforeAttrName =>
    have hplace : b.place n = b.placeInTag n := by
      unfold Assembly.place
      rw [hb]
    rw [hplace] at hc ⊢
    exact h.placeInTag hcoh hb hstays hc _ _
  | attrName part sep drop =>
    have hdrop : drop = false := by
      have := hcoh.discards
      rwa [hb] at this
    have hplace : b.place n = ((b.reportJoined n).closeAttr n.location.start).placeInTag n := by
      unfold Assembly.place
      rw [hb]
      dsimp only
      rw [hdrop, Bool.false_and, if_neg (by simp)]
    rw [hplace] at hc ⊢
    obtain ⟨-, hj⟩ := reportJoined_of_clean ((extends_closeAttr ..).clean
      ((extends_placeInTag ..).clean hc))
    rw [hj] at hc ⊢
    exact (h.closeAttr hcoh hb _ [] []).placeInTag (hcoh.closeAttr hb _)
      (by rw [Assembly.closeAttr, enter_context]) hstays hc _ _
  | beforeAttrValue =>
    have hplace : b.place n = b.placeBeforeValue n := by
      unfold Assembly.place
      rw [hb]
    rw [hplace]
    exact h.placeBeforeValue hcoh hb hstays rest

end Placing

/-! ## 2. Control flow and ends -/

section Ends

variable {room : Nat} {b : Assembly} {held rest t : Text}

/-- The name of a tag or an attribute ends. -/
theorem Traced.finishName (h : b.Traced room [] []) (hcoh : b.Coherent [])
    (hb : b.context ≠ .tagName .empty) (offset : Nat) :
    (match b.context with
      | .tagName _ => b.finishTagName.enter .beforeAttrName offset
      | .attrName .. => b.closeAttr offset
      | _ => b).Traced room [] [] := by
  cases hx : b.context with
  | tagName part => exact h.finishTagName hcoh hx (by rintro rfl; exact hb hx) _
  | attrName part sep drop => exact h.closeAttr hcoh hx _ _ _
  | _ => exact h

/-- Before control flow. -/
theorem Traced.settle (h : b.Traced room [] []) (hcoh : b.Coherent []) (location : Span)
    (hc : (b.settle location).Clean) : (b.settle location).Traced room [] [] := by
  have hb : b.context ≠ .tagName .empty := by
    intro hb
    unfold Assembly.settle at hc
    rw [hb] at hc
    exact absurd ((extends_abortTag _).clean hc) (not_clean_report _ _ _)
  have hfinish := h.finishName hcoh hb location.start
  unfold Assembly.settle
  cases hx : b.context with
  | tagName part =>
    rw [hx] at hfinish hb
    cases part <;> first | exact hfinish | exact absurd rfl hb
  | _ => rw [hx] at hfinish; exact hfinish

/-- **Control flow that is lasting leaves lasting nodes.**  Where a value is due it may be met again
among attributes, if it gives no value. -/
theorem Traced.placeFlow {f : Flow} {exit : Context} (h : b.Traced room [] [])
    (hcoh : b.Coherent []) (hs : b.context.isSettled = true) (hl : Context.Leads b.context exit)
    (hhome : f.isDurable = true → b.context.isHome = true →
      f.lastingFrom? room b.context = some exit)
    (hslot : f.isDurable = true → b.context = .beforeAttrValue → exit = .beforeAttrValue →
      f.lastingFrom? room .beforeAttrName = some .beforeAttrName) (rest : Text) :
    (b.placeFlow f exit).Traced room [] rest := by
  have hdurable : (Node.flow f).isDurable = f.isDurable := by rw [Node.isDurable]
  have hlasting (here : Context) :
      (Node.flow f).lastingFrom? room here = f.lastingFrom? room here := by
    rw [Node.lastingFrom?]
  have hcoh' := hcoh.placeFlow f hl
  have hsame {b' : Assembly} (hb' : b'.context = exit) (offset : Nat) :
      b'.enter exit offset = b' := by
    unfold enter
    rw [if_pos hb']
  cases hb : b.context with
  | pcdata | rcdata e | declaration | cdata =>
    have hcontent : b.context.isContent = true := by rw [hb]; rfl
    have hexit := (Context.leads_of_isContent hcontent).mp hl
    have hplace : b.placeFlow f exit = (b.addContent (.flow f)).enter exit f.location.start := by
      unfold Assembly.placeFlow
      rw [hb]
    have hout : (b.addContent (.flow f)).out = .flow f :: b.out := by
      rw [addContent, content_of_isContent hcontent, setContent_of_isContent hcontent]
    rw [hplace] at hcoh' ⊢
    refine traced_of_finished h hcoh hcontent
      ((enter_entry ..).trans (extends_addContent ..).entry)
      (hcoh'.of_content (by rw [enter_context]; exact hexit)).2 ((enter_out ..).trans hout)
      (enter_context ..) hexit rfl (fun hd => ?_) rest
    rw [hlasting]
    exact hhome (hdurable ▸ hd) (by unfold Context.isHome; rw [hcontent]; rfl)
  | comment =>
    have hplace : b.placeFlow f exit = (b.addContent (.flow f)).enter exit f.location.start := by
      unfold Assembly.placeFlow
      rw [hb]
    rw [hb] at hl
    rw [hplace, hsame ((addContent_context ..).trans (hb.trans hl.symm))]
    exact h.addContent_of_comment hcoh hb _ _ _
  | attrValue quotes =>
    have hplace : b.placeFlow f exit = (b.addContent (.flow f)).enter exit f.location.start := by
      unfold Assembly.placeFlow
      rw [hb]
    rw [hb] at hl
    rw [hplace, hsame ((addContent_context ..).trans (hb.trans hl.symm))]
    exact h.addContent_of_value hcoh hb _ _ _
  | beforeAttrName =>
    have hplace : b.placeFlow f exit = (b.addAmongAttrs (.flow f)).enter exit f.location.start := by
      unfold Assembly.placeFlow
      rw [hb]
    rw [hb] at hl
    rw [hplace, hsame ((addAmongAttrs_context ..).trans (hb.trans hl.symm))]
    refine h.addAmongAttrs hcoh (by rw [hb]; rfl) ⟨rfl, fun hd => ?_⟩ _ _
    have := hhome (hdurable ▸ hd) (by rw [hb]; rfl)
    rw [hlasting, ← hb, this, hb]
    exact congrArg some hl
  | beforeAttrValue =>
    have hplace : b.placeFlow f exit = if exit = .beforeAttrName
        then b.fillSlot (.flow f) f.location.stop
        else (b.addAmongAttrs (.flow f)).enter exit f.location.start := by
      unfold Assembly.placeFlow
      rw [hb]
    rw [hb] at hl
    rw [hplace]
    split
    · exact h.fillSlot hcoh hb _ _ _ _
    · next hne =>
      obtain rfl := hl.resolve_right hne
      rw [hsame ((addAmongAttrs_context ..).trans hb)]
      refine h.addAmongAttrs hcoh (by rw [hb]; rfl) ⟨rfl, fun hd => ?_⟩ _ _
      rw [hlasting]
      exact hslot (hdurable ▸ hd) hb rfl
  | tagName | attrName => rw [hb] at hs; cases hs

theorem lastingFrom?_of_lastingOut? {entry final : Context} {out : List Node}
    (h : lastingOut? room entry out = some final) :
    lastingFrom? room entry out.reverse = some final := by
  rw [← List.append_nil out.reverse]
  exact lastingFrom?_reverse_append h (fun _ _ _ hn => by cases hn) rfl

/-- A `<` or `</` at the end begins no tag, and is lasting with the text before it. -/
theorem Traced.lasting_abortTag (h : b.Traced room [] []) (hcoh : b.Coherent [])
    (hb : b.context = .tagName .empty) (hd : durableOut b.abortTag.out = true) :
    lastingFrom? room b.entry b.abortTag.nodes = some .pcdata ∧ b.abortTag.context = .pcdata := by
  obtain ⟨he, tag, ht, hname, htext⟩ := hcoh.of_tagName hb
  generalize hx : ({ b with tag := none } : Assembly).enter tag.outside tag.start = x
  have hentry : x.entry = b.entry := by rw [← hx, enter_entry]
  have hout : x.out = b.out := by rw [← hx, enter_out]
  have hxc : x.context = tag.outside := by rw [← hx, enter_context]
  have hcontent : x.context.isContent = true := by
    rw [hxc]
    unfold TagDraft.outside
    split <;> rfl
  have habort : b.abortTag = x.addText (if tag.close then ['<', '/'] else ['<'])
      (Span.upTo tag.start tag.nameLocation.stop) := by
    unfold abortTag
    rw [ht]
    dsimp only
    rw [hx, hname, htext, List.append_nil]
  rw [habort] at hd ⊢
  rw [durableOut_addText hcontent, hout] at hd
  obtain ⟨⟨rest, hstretch, hrest⟩, hcloses⟩ := h.openTag he hd ht
  have houtside : tag.outside = .pcdata := by
    unfold TagDraft.outside
    cases hel : tag.element with
    | none => rfl
    | some e =>
      have := (hcloses e hel).2
      rw [hb] at this
      exact absurd this tag.not_closes_nil
  rw [hrest hb, List.append_nil, houtside, ← hout] at hstretch
  refine ⟨?_, (addText_context ..).trans (hxc.trans houtside)⟩
  refine hstretch.lastingFrom?_angle hcontent ?_ _
  cases tag.close
  · exact .inl rfl
  · exact .inr rfl

/-- What is open at the end of a tag's attributes is added among them. -/
theorem Coherent.closeAttrs (room : Nat) (h : b.Coherent []) (hs : b.context.isSettled = true)
    (hb : b.context.isAmongAttrs = true)
    (he : b.entry.isContent = true ∨ b.entry = .beforeAttrName) (stop : Nat) :
    b.AddsAmong room ((b.closeValue stop).closeAnyAttr stop)
      ∧ ((b.closeValue stop).closeAnyAttr stop).Coherent []
      ∧ ((b.closeValue stop).closeAnyAttr stop).context = .beforeAttrName := by
  have hcoh := (h.closeValue stop).closeAnyAttr (isSettled_closeValue hs stop)
    (b.closeValue_drafts stop).1 stop
  suffices hadds : b.AddsAmong room ((b.closeValue stop).closeAnyAttr stop)
      ∧ ((b.closeValue stop).closeAnyAttr stop).context = .beforeAttrName from
    ⟨hadds.1, hcoh, hadds.2⟩
  have hslot : b.entry ≠ .beforeAttrValue := by
    rintro he'
    rw [he'] at he
    rcases he with he | he <;> cases he
  cases hv : b.value with
  | none =>
    rw [closeValue_of_eq_none hv]
    cases ha : b.attr with
    | none =>
      rw [closeAnyAttr_of_eq_none ha]
      refine ⟨addsAmong_of_same rfl rfl rfl rfl, ?_⟩
      have := h
      unfold Coherent at this
      rw [ha, hv] at this
      generalize b.context = here, b.tag = tag, b.comment = comment, b.entry = entry at *
      cases this with
      | inTag => rfl
      | content _ hh => cases here <;> first | (cases hh; done) | cases hb
      | comment | inComment => cases hb
      | tagName => cases hb
      | beforeValue ht ha => exact absurd ha hslot
      | inValue he' => subst he'; rcases he with he | he <;> cases he
    | some attr =>
      have hattr : b.closeAnyAttr stop = b.closeAttr stop := by
        unfold Assembly.closeAnyAttr
        rw [ha]
        rfl
      rw [hattr]
      exact ⟨addsAmong_closeAttr .., by rw [Assembly.closeAttr, enter_context]⟩
  | some value =>
    have hattr : (b.closeValue stop).attr = none :=
      (b.closeValue_drafts stop).2.resolve_left (by rw [hv]; rintro ⟨⟩)
    have hvalue : b.closeValue stop = (b.endValue stop).enter .beforeAttrName stop := by
      unfold Assembly.closeValue
      rw [hv]
    rw [closeAnyAttr_of_eq_none hattr, hvalue]
    obtain ⟨ledger, entry, here, inBranch, out, tag, attr, value', comment, filled, raw, off⟩ := b
    dsimp only at hv hslot
    subst hv
    dsimp only [Coherent] at h
    cases h with
    | value draft ht ha =>
      have hattr : attr.isSome = true := by
        cases attr with
        | none => exact absurd ha hslot
        | some attr => rfl
      exact ⟨(addsAmong_endValue _ _ hattr).trans (addsAmong_enter ..), enter_context ..⟩

/-- A branch that reports nothing leaves no tag and no comment open. -/
theorem endBranch_of_clean (hc : b.endBranch.Clean) : b.endBranch = b.closeDrafts
    ∧ b.settleAtEnd.tag = none ∧ b.settleAtEnd.comment = none := by
  unfold endBranch at hc ⊢
  cases hopen : b.settleAtEnd.openConstruct? with
  | some p =>
    rw [hopen] at hc
    exact absurd hc (not_clean_report _ _ _)
  | none =>
    refine ⟨rfl, ?_⟩
    unfold openConstruct? at hopen
    split at hopen <;> first | (cases hopen; done) | skip
    · next ht hm => exact ⟨ht, hm⟩
    · next ht hm => exact ⟨ht, hm⟩

/-- At the end of a block or branch. -/
theorem Traced.settleAtEnd (h : b.Traced room [] []) (hcoh : b.Coherent [])
    (hb : b.context ≠ .tagName .empty) : b.settleAtEnd.Traced room [] [] := by
  have hfinish := h.finishName hcoh hb b.offset
  unfold Assembly.settleAtEnd
  cases hx : b.context with
  | tagName part =>
    rw [hx] at hfinish hb
    cases part <;> first | exact hfinish | exact absurd rfl hb
  | _ => rw [hx] at hfinish; exact hfinish

theorem settleAtEnd_of_tagName (hb : b.context = .tagName .empty) : b.settleAtEnd = b.abortTag := by
  unfold Assembly.settleAtEnd
  rw [hb]

/-- Giving up a tag at the end leaves nothing open. -/
theorem closed_settleAtEnd (hcoh : b.Coherent []) (hb : b.context = .tagName .empty) :
    b.settleAtEnd.Closed := by
  obtain ⟨-, tag, ht, -⟩ := hcoh.of_tagName hb
  refine (hcoh.settleAtEnd.1.of_content ?_).2
  rw [settleAtEnd_of_tagName hb, abortTag_context ht]
  unfold TagDraft.outside
  split <;> rfl

/-- After a name that has ended one stands between attributes. -/
theorem settleAtEnd_context (hb : b.context ≠ .tagName .empty) :
    b.settleAtEnd = b ∨ b.settleAtEnd.context = .beforeAttrName := by
  unfold Assembly.settleAtEnd
  split
  · next hx => exact absurd hx hb
  · exact .inr (enter_context ..)
  · exact .inr (by rw [Assembly.closeAttr, enter_context])
  · exact .inl rfl

/-- Among attributes no comment is open. -/
theorem Coherent.comment_eq_none (h : b.Coherent t) (hb : b.context.isAmongAttrs = true) :
    b.comment = none := by
  unfold Coherent at h
  generalize b.context = here, b.tag = tag, b.attr = attr, b.value = value, b.comment = comment at *
  cases h <;> first | rfl | cases hb

/-- Among attributes the drafts that are open are closed with the tag. -/
theorem exists_closeDrafts_eq (room : Nat) (hcoh : b.Coherent [])
    (hb : b.settleAtEnd.context.isAmongAttrs = true)
    (he : b.entry.isContent = true ∨ b.entry = .beforeAttrName) :
    ∃ x : Assembly, b.settleAtEnd.AddsAmong room x ∧ x.Coherent [] ∧ x.context = .beforeAttrName
      ∧ b.closeDrafts = x.closeTag false b.offset false := by
  obtain ⟨hcoh', hs⟩ := hcoh.settleAtEnd
  rw [← (extends_settleAtEnd b).entry] at he
  obtain ⟨hadds, hx, hcontext⟩ := hcoh'.closeAttrs room hs hb he b.offset
  refine ⟨_, hadds, hx, hcontext, ?_⟩
  rw [closeDrafts_eq]
  refine closeAnyComment_of_eq_none ((closeTag_drafts ..).2.2.2.trans ?_) _
  exact hadds.comment.trans (hcoh'.comment_eq_none hb)

/-- At the end a tag gives way to content. -/
theorem closeTag_context {tag : TagDraft} {name : Node} (ht : b.tag = some tag)
    (hname : tag.name = some name) (selfClosing : Bool) (stop : Nat) :
    (b.closeTag selfClosing stop false).context = .pcdata := by
  unfold closeTag
  rw [ht]
  dsimp only
  rw [hname]
  dsimp only
  split
  · exact (addCloseTag_drafts ..).2.1
  · unfold addOpenTag
    rw [enter_context]
    split <;> rfl

/-- A branch that stands for a value gives one, or it is among attributes still. -/
theorem TracedSlot.closeDrafts (h : b.settleAtEnd.TracedSlot room) (hcoh : b.Coherent [])
    (he : b.entry = .beforeAttrValue) (hb : b.closeDrafts.context = .beforeAttrValue) :
    b.closeDrafts = b.settleAtEnd ∧ b.settleAtEnd.context = .beforeAttrValue := by
  obtain ⟨hcoh', -⟩ := hcoh.settleAtEnd
  have hclose := (h.standing ((extends_settleAtEnd b).entry.trans he)).closeDrafts hcoh'
  rw [hclose] at hb ⊢
  unfold closeValue at hb ⊢
  cases hv : b.settleAtEnd.value with
  | none =>
    rw [hv] at hb
    exact ⟨rfl, hb⟩
  | some value =>
    -- the value is what the branch gives
    rw [hv] at hb
    cases (enter_context ..).symm.trans hb

/-- **The nodes of a branch that reports nothing are lasting**, up to the context in which it ends.
Those of a branch that stands for a value are so among attributes, if it gives none. -/
theorem Traced.lasting_endBranch (h : b.Traced room [] []) (hcoh : b.Coherent [])
    (hc : b.endBranch.Clean) (hd : durableOut b.endBranch.out = true) :
    (b.entry.isHome = true →
      lastingFrom? room b.entry b.endBranch.nodes = some b.endBranch.context)
    ∧ (b.entry = .beforeAttrValue → b.endBranch.context = .beforeAttrValue →
      lastingFrom? room .beforeAttrName b.endBranch.nodes = some .beforeAttrName) := by
  obtain ⟨hcoh', hs⟩ := hcoh.settleAtEnd
  by_cases hempty : b.context = .tagName .empty
  · have he := (hcoh.of_tagName hempty).1
    rw [endBranch_of_settleAtEnd (closed_settleAtEnd hcoh hempty),
      settleAtEnd_of_tagName hempty] at hd ⊢
    obtain ⟨hlast, hcontext⟩ := h.lasting_abortTag hcoh hempty hd
    refine ⟨fun _ => ?_, fun he' => by rw [he'] at he; cases he⟩
    rw [hcontext]
    exact hlast
  have hsettle := h.settleAtEnd hcoh hempty
  obtain ⟨heq, htag, hcomment⟩ := endBranch_of_clean hc
  rw [heq] at hd ⊢
  have hentry : b.settleAtEnd.entry = b.entry := (extends_settleAtEnd b).entry
  refine ⟨fun he => ?_, fun he hb => ?_⟩
  · rcases Bool.or_eq_true_iff.mp he with he | he
    · obtain ⟨hb, hclosed⟩ | ⟨-, -, hsome⟩ | ⟨part, tag, hb, -⟩ | ⟨-, tag, ht, -⟩ :=
        hcoh'.cases_of_isContent (by rw [hentry]; exact he)
      · rw [closeDrafts_of_settleAtEnd hclosed] at hd ⊢
        have := (hsettle.stretch (by rw [hentry]; exact he) hd hclosed).lasting (.inl rfl)
        rw [hentry] at this
        exact lastingFrom?_of_lastingOut? this
      · rw [hcomment] at hsome
        cases hsome
      · rw [hb] at hs
        cases hs
      · rw [htag] at ht
        cases ht
    · rw [beq_iff_eq] at he
      obtain ⟨hamong, -⟩ := hcoh'.of_isInTag (by rw [hentry, he]; rfl)
      obtain ⟨x, hadds, hxcoh, hx, hclose⟩ := exists_closeDrafts_eq room hcoh hamong (.inr he)
      rw [hclose, closeTag_of_eq_none (hadds.outside htag).1] at hd ⊢
      have hxt : x.Traced room [] [] := hsettle.of_addsAmong hcoh' (by rw [hentry, he]; nofun) hadds
        hamong (by rw [hx]; rfl)
      rw [he, hx]
      exact lastingFrom?_of_lastingOut?
        (hxt.attrs (hadds.entry.trans (hentry.trans he)) hd)
  · have hslot := hsettle.slot (hentry.trans he)
    obtain ⟨hclose, hb'⟩ := hslot.closeDrafts hcoh he hb
    rw [hclose] at hd ⊢
    exact lastingFrom?_of_lastingOut? (hslot.waiting hb' hd)

/-- A block that ends among attributes closes its tag, unless it is one of attributes. -/
theorem Traced.lasting_closeAttrs (h : b.Traced room [] []) (hcoh : b.Coherent [])
    (he : b.entry.isHome = true) (hempty : b.context ≠ .tagName .empty)
    (hamong : b.settleAtEnd.context.isAmongAttrs = true) (hc : b.closeDrafts.Clean)
    (hd : durableOut b.closeDrafts.out = true) (hend : endsInBody b.closeDrafts.nodes = false) :
    ∃ final, lastingFrom? room b.entry b.closeDrafts.nodes = some final
      ∧ (final = b.entry ∨ final.isRaw = false) := by
  have hsettle := h.settleAtEnd hcoh hempty
  have hentry : b.settleAtEnd.entry = b.entry := (extends_settleAtEnd b).entry
  obtain ⟨x, hadds, hxcoh, hx, hclose⟩ := exists_closeDrafts_eq room hcoh hamong
    ((Bool.or_eq_true_iff.mp he).imp_right beq_iff_eq.mp)
  have hslot : b.settleAtEnd.entry ≠ .beforeAttrValue := by
    rw [hentry]
    intro he'
    rw [he'] at he
    cases he
  have hxt : x.Traced room [] [] :=
    hsettle.of_addsAmong hcoh.settleAtEnd.1 hslot hadds hamong (by rw [hx]; rfl)
  have hxe : x.entry = b.entry := hadds.entry.trans hentry
  rw [hclose] at hc hd hend ⊢
  rcases Bool.or_eq_true_iff.mp he with he | he
  · obtain ⟨hcontent, -⟩ | ⟨hcontent, -⟩ | ⟨part, tag, hcontent, -⟩
      | ⟨-, tag, ht, hname, hwarned⟩ := hxcoh.cases_of_isContent (by rw [hxe]; exact he)
    · rw [hx] at hcontent
      cases hcontent
    · rw [hx] at hcontent
      cases hcontent
    · rw [hx] at hcontent
      cases hcontent
    obtain ⟨name, hname⟩ := Option.isSome_iff_exists.mp hname
    obtain ⟨n, next, hout, -, -, hlast, hnext⟩ := lasting_closeTag (by rw [hxe]; exact he) ht
      hname hwarned (by rw [hx]; rfl) hxt false b.offset false hc
    unfold endsInBody nodes at hend
    rw [hout, List.getLast?_reverse] at hend
    have hnone : contextAfter? .pcdata n = none := by simpa using hend
    rw [hout] at hd
    refine ⟨next, ?_, .inr ?_⟩
    · unfold nodes
      rw [hout, ← hxe]
      exact lastingFrom?_of_lastingOut? (hlast hd)
    · rw [← hnext (.inr hnone), closeTag_context ht hname]
      rfl
  · rw [beq_iff_eq] at he
    obtain ⟨-, ht, -⟩ := hxcoh.of_isInTag (by rw [hxe, he]; rfl)
    rw [closeTag_of_eq_none ht] at hd ⊢
    refine ⟨.beforeAttrName, ?_, .inl he.symm⟩
    rw [he]
    exact lastingFrom?_of_lastingOut? (hxt.attrs (hxe.trans he) hd)

/-- **The nodes of a block that reports nothing are lasting**, unless it ends in the body of an
element. -/
theorem Traced.lasting_endBlock {block : BlockKind} (h : b.Traced room [] []) (hcoh : b.Coherent [])
    (he : b.entry.isHome = true) (hc : (b.endBlock block).Clean)
    (hd : durableOut (b.endBlock block).out = true)
    (hend : endsInBody (b.endBlock block).nodes = false) :
    ∃ final, lastingFrom? room b.entry (b.endBlock block).nodes = some final
      ∧ (final = b.entry ∨ final.isRaw = false) := by
  have hcheck : b.endBlock block = b.closeDrafts
      ∧ (b.context = b.entry ∨ b.context.isRaw = false) := by
    unfold endBlock checkContext at hc ⊢
    split at hc
    · exact absurd ((extends_closeDrafts _).clean hc) (not_clean_report _ _ _)
    · next hcheck =>
      rw [if_neg hcheck]
      refine ⟨rfl, ?_⟩
      by_cases hb : b.context = b.entry
      · exact .inl hb
      · exact .inr (by simpa [hb] using hcheck)
  obtain ⟨heq, hcheck⟩ := hcheck
  rw [heq] at hc hd hend ⊢
  obtain ⟨hcoh', hs⟩ := hcoh.settleAtEnd
  by_cases hempty : b.context = .tagName .empty
  · rw [closeDrafts_of_settleAtEnd (closed_settleAtEnd hcoh hempty),
      settleAtEnd_of_tagName hempty] at hd ⊢
    exact ⟨.pcdata, (h.lasting_abortTag hcoh hempty hd).1, .inr rfl⟩
  have among (hamong : b.settleAtEnd.context.isAmongAttrs = true) :=
    h.lasting_closeAttrs hcoh he hempty hamong hc hd hend
  rcases settleAtEnd_context hempty with hsame | hname
  · rw [hsame] at hcoh' hs among
    rcases Bool.or_eq_true_iff.mp he with hcontent | hattrs
    · obtain ⟨hb, hclosed⟩ | ⟨hb, -⟩ | ⟨part, tag, hb, -⟩ | ⟨hb, -⟩ :=
        hcoh'.cases_of_isContent hcontent
      · rw [closeDrafts_of_closed hclosed hs] at hd ⊢
        exact ⟨_, lastingFrom?_of_lastingOut? ((h.stretch hcontent hd hclosed).lasting (.inl rfl)),
          hcheck⟩
      · -- a comment may not be left open
        rcases hcheck with hcheck | hcheck
        · rw [← hcheck, hb] at hcontent
          cases hcontent
        · rw [hb] at hcheck
          cases hcheck
      · rw [hb] at hs
        cases hs
      · exact among hb
    · exact among (hcoh'.of_isInTag (by rw [beq_iff_eq.mp hattrs]; rfl)).1
  · exact among (by rw [hname]; rfl)

end Ends

end Assembly

end TemplateMarkup
