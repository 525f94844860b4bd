/-
# Authored nodes are evaluated in source order

`Proofs.Html.Sequenced` moves a node out of its turn in one place only: where an attribute with a
computed name waits for its value.  `Assembly.Heeds` follows what has been read since the computed
name, so that `timely`, a condition on the source, says that nothing is placed there but what gives
the value.  For control flow that is `rewriteFlow_offers`.
-/
import TemplateMarkup.Proofs.Html.Kept
import TemplateMarkup.Proofs.Html.Offered

namespace TemplateMarkup

/-! ## 1. What stands before the reader -/

/-- Only a `=` after a name makes a value due. -/
theorem Context.equals_of_next {here : Context} {c : Char} {cs : Text}
    (hb : here ≠ .beforeAttrValue) (h : (here.lexeme c cs).next = .beforeAttrValue) :
    (c :: cs).take (here.lexeme c cs).width = ['='] := by
  have hname : ∃ part sep drop, here = .attrName part sep drop := by
    have hl := here.lexeme_move c cs
    generalize here.lexeme c cs = l at hl h
    cases hl <;> first | (cases h; done) | exact ⟨_, _, _, rfl⟩ | exact absurd rfl hb
  obtain ⟨part, sep, drop, rfl⟩ := hname
  rw [Context.lexeme] at h ⊢
  by_cases hc : c = '='
  · subst hc
    cases part <;> cases drop <;> cases sep <;> first | rfl | cases h
  · have hend : (Lexeme.atAttrNameEnd c).next = .beforeAttrName := by
      unfold Lexeme.atAttrNameEnd
      rw [if_neg hc]
      rfl
    exfalso
    simp only [Lexeme.inAttrNameAt] at h
    repeat' split at h
    all_goals first | cases h | cases hend.symm.trans h

namespace Assembly

/-- Where an attribute with a computed name is open, `lead` says how far it has been read. -/
def Heeds (b : Assembly) (lead : Lead) : Prop :=
  b.attr.elim [] AttrDraft.sequence ≠ [] →
    (b.context = .beforeAttrValue → lead = .equals)
      ∧ ∀ part sep drop, b.context = .attrName part sep drop → lead = .name

section Operations

variable {b : Assembly} {t : Text} {lead : Lead}

theorem Heeds.waits (h : b.Heeds lead) (hw : b.Waits) : lead = .equals := (h hw.2).1 hw.1

theorem heeds_of_context (h : b.context.isNaming = false) : b.Heeds lead := by
  refine fun _ => ⟨fun hb => ?_, fun part sep drop hb => ?_⟩ <;> rw [hb] at h <;> cases h

/-- An attribute without a name, or with one that is written out. -/
theorem heeds_of_attr (h : b.attr.elim [] AttrDraft.sequence = []) : b.Heeds lead :=
  fun hne => absurd h hne

theorem heeds_start (l : Ledger) (entry : Context) (inBranch : Bool) (offset : Nat) :
    (start l entry inBranch offset).Heeds .none := heeds_of_attr rfl

/-- Only a computed name holds a node. -/
theorem Coherent.named_dynamic {part : NamePart} {sep drop : Bool} (h : b.Coherent t)
    (hb : b.context = .attrName part sep drop) (hp : part ≠ .dynamic) :
    b.attr.elim [] AttrDraft.sequence = [] := by
  obtain ⟨ledger, entry, here, inBranch, out, tag, attr, value, comment, filled, raw, off⟩ := b
  dsimp only at hb
  subst hb
  dsimp only [Coherent] at h
  cases h with
  | content _ hh => cases hh
  | attrName _ _ hs =>
    cases part with
    | dynamic => exact absurd rfl hp
    | empty | static => simp [AttrDraft.sequence, hs.1]

/-- **A mark is one more step from the name to the value.** -/
theorem Heeds.apply {c : Char} {cs text : Text} {l : Lexeme} {m : Mark} (location : Span)
    (h : b.Heeds lead) (hcoh : b.Coherent (c :: cs)) (hl : Context.Move b.context c l)
    (hm : l.mark = some m) (hf : l.fault = none) (hc : (b.apply m l.next text location).Clean)
    (hequals : l.next = .beforeAttrValue → b.context ≠ .beforeAttrValue → text = ['='])
    (hidle : l.next = .beforeAttrValue → b.context = .beforeAttrValue → Text.Idle text) :
    (b.apply m l.next text location).Heeds (lead.past text) := by
  have entered (b' : Assembly) {next : Context} (hn : next.isNaming = false) (offset : Nat) :
      (b'.enter next offset).Heeds (lead.past text) :=
    heeds_of_context (by rw [enter_context]; exact hn)
  generalize hb : b.context = here at hl hequals hidle
  cases hl <;> cases hm <;> try (cases hf; done)
  all_goals simp only [Assembly.apply] at hc ⊢
  case attrChar part sep sep' hp =>
    have hattr := hcoh.named_dynamic hb hp
    refine heeds_of_attr ?_
    rw [enter_attr]
    unfold Assembly.addAttrName
    split
    · exact hattr
    · next attr ha =>
      rw [ha] at hattr
      split
      · rw [ha]
        exact hattr
      · exact hattr
  case equals part sep drop hpart =>
    rw [hequals rfl (by simp)]
    intro hne
    rw [enter_attr, finishAttrName_attr] at hne
    refine ⟨fun _ => ?_, fun _ _ _ hx => ?_⟩
    · rw [(h hne).2 _ _ _ hb]
      rfl
    · cases (enter_context ..).symm.trans hx
  case skipBeforeValue w =>
    intro hne
    simp only [Context.discards, Bool.false_and, Bool.false_eq_true, if_false] at hne ⊢
    rw [enter_attr] at hne
    refine ⟨fun _ => ?_, fun _ _ _ hx => ?_⟩
    · rw [(h hne).1 hb]
      exact Lead.past_equals (hidle rfl rfl)
    · cases (enter_context ..).symm.trans hx
  case attrStart =>
    exact heeds_of_attr (by rw [enter_attr]; rfl)
  case skipDropped part sep =>
    have := hcoh.discards
    rw [hb] at this
    cases this
  case closeComment =>
    split at hc
    · exact entered _ rfl _
    · exact absurd ((extends_addText ..).clean hc) (not_clean_report _ _ _)
  case endTag =>
    have ha := hcoh.attr_eq_none hb
    split at hc
    · exact heeds_of_attr (by rw [(closeTag_drafts ..).2.1, ha]; rfl)
    · exact absurd hc (not_clean_report _ _ _)
  case closeBare | closeQuoted =>
    split at hc
    · exact entered _ rfl _
    · split at hc
      · exact absurd ((extends_enter ..).clean hc) (not_clean_report _ _ _)
      · exact absurd ((extends_addText ..).clean hc) (not_clean_report _ _ _)
  all_goals exact entered _ rfl _

theorem Heeds.read {run : RawRun} (h : b.Heeds lead) (hcoh : b.Coherent t)
    (hc : (b.read run 0 none t).Clean) : (b.read run 0 none t).Heeds (lead.past t) := by
  suffices key : (b.read run 0 none t).Coherent [] ∧ ∃ lead', (b.read run 0 none t).Heeds lead'
      ∧ lead'.past [] = lead.past t by
    obtain ⟨-, lead', h', rfl⟩ := key
    exact h'
  refine read_rule (P := fun b' _ t' => b'.Clean → b'.Coherent t'
      ∧ ∃ lead', b'.Heeds lead' ∧ lead'.past t' = lead.past t)
    ?_ ?_ ?_ (fun _ => ⟨hcoh, lead, h, rfl⟩) (fun _ hk => by cases hk) hc
  · intro b' held c cs location offset hP hm hc
    refine ⟨Coherent.content_of_clean location offset (fun hc => (hP hc).1) hm hc, ?_⟩
    obtain ⟨-, lead', -, hover⟩ := hP ((extends_reportLexeme ..).clean ((extends_enter ..).clean hc))
    refine ⟨lead'.past ((c :: cs).take (b'.context.lexeme c cs).width), heeds_of_context ?_, ?_⟩
    · rw [enter_context]
      have := (Context.Move.of_content (Context.lexeme_move b'.context c cs) hm).2.2
      cases hx : (b'.context.lexeme c cs).next <;> rw [hx] at this <;> first | rfl | cases this
    · rw [← Lead.past_append, List.take_append_drop]
      exact hover
  · intro b' held t' location hP _ hb hc
    obtain ⟨hcoh, lead', -, hover⟩ := hP ((extends_addText ..).clean hc)
    refine ⟨hcoh.addText .., lead', heeds_of_context ?_, hover⟩
    rw [addText_context]
    cases hx : b'.context <;> rw [hx] at hb <;> first | rfl | cases hb
  · intro b' c cs m location place hP hm hc
    refine ⟨Coherent.mark_of_clean location place (fun hc => (hP hc).1) hm hc, ?_⟩
    have hfault := fault_eq_none_of_clean (extends_apply ..) hc
    rw [reportLexeme_of_fault_eq_none hfault] at hc ⊢
    obtain ⟨hcoh, lead', h', hover⟩ := hP ((extends_apply ..).clean hc)
    refine ⟨lead'.past ((c :: cs).take (b'.context.lexeme c cs).width),
      h'.apply place hcoh (Context.lexeme_move ..) hm hfault hc ?_ ?_, ?_⟩
    · exact fun hnext hb => Context.equals_of_next hb hnext
    · intro hnext hb
      rw [hb] at hnext ⊢
      exact Context.idle_of_next hnext
    · rw [← Lead.past_append, List.take_append_drop]
      exact hover

theorem Heeds.readRun {run : RawRun} (h : b.Heeds lead) (hcoh : b.Coherent [])
    (hc : (b.readRun run).Clean) : (b.readRun run).Heeds (lead.past run.text) :=
  Heeds.read (b := { b with ledger := b.ledger.countRun }) h hcoh.restrict_nil hc

theorem Heeds.readCollected {run : Option RawRun} (h : b.Heeds lead) (hcoh : b.Coherent [])
    (hc : (b.readCollected run).Clean) :
    (b.readCollected run).Heeds (lead.past (run.elim [] RawRun.text)) := by
  cases run with
  | none => exact h
  | some run => exact h.readRun hcoh hc

/-- What is collected is still to be read. -/
theorem Heeds.collect {run : Option RawRun} {text : Text} {location : Span} (h : b.Heeds lead)
    (hcoh : b.Coherent []) (hc : (b.collect run text location).1.Clean) :
    ∃ lead', (b.collect run text location).1.Heeds lead'
      ∧ lead'.past (b.collect run text location).2.text
        = (lead.past (run.elim [] RawRun.text)).past text := by
  unfold Assembly.collect at hc ⊢
  cases run with
  | none => exact ⟨lead, h, by rw [RawRun.text_single]; rfl⟩
  | some run =>
    dsimp only at hc ⊢
    split at hc
    · next hj =>
      rw [if_pos hj]
      exact ⟨lead, h, by rw [RawRun.text_push, Lead.past_append]; rfl⟩
    · next hj =>
      rw [if_neg hj]
      exact ⟨_, h.readRun hcoh hc, by rw [RawRun.text_single]; rfl⟩

/-- Outside tags a node leaves no name open. -/
theorem heeds_placeContent (hb : b.context.isNaming = false) (node : Node) :
    (b.placeContent node).Heeds lead := by
  refine heeds_of_context ?_
  unfold Assembly.placeContent
  split
  · rw [addContent_context]
    exact hb
  · next next hnext =>
    rw [enter_context]
    have hcontent := (isContent_of_contextAfter? hnext).2
    cases next <;> first | rfl | cases hcontent

/-- Between attributes a computed node is a name. -/
theorem heeds_placeInTag (hb : b.context = .beforeAttrName) {node : Node}
    (hraw : node.rawText? = none) : (b.placeInTag node).Heeds (node.lead lead) := by
  unfold Assembly.placeInTag
  split
  · next hp =>
    refine fun _ => ⟨fun hx => ?_, fun _ _ _ _ => ?_⟩
    · cases (enter_context ..).symm.trans hx
    · cases node <;> first | rfl | cases hp
  · exact heeds_of_context (by rw [addAmongAttrs_context, hb]; rfl)

/-- A node that gives no value stands there only if the attribute's name is written out. -/
theorem heeds_placeBeforeValue (hb : b.context = .beforeAttrValue) {node : Node}
    (hw : b.Waits → node.isValue = true) : (b.placeBeforeValue node).Heeds lead := by
  have hamong (ho : node.isValue = false) : (b.addAmongAttrs node).Heeds lead := by
    refine heeds_of_attr ?_
    rw [addAmongAttrs_attr]
    refine Classical.byContradiction fun hne => ?_
    exact absurd (ho.symm.trans (hw ⟨hb, hne⟩)) Bool.false_ne_true
  unfold Assembly.placeBeforeValue
  cases node with
  | print | call | attrValue => exact heeds_of_context (congrArg _ (enter_context ..))
  | _ => exact hamong rfl

/-- **After a computed node a value may come to be due.** -/
theorem Coherent.heeds_place (h : b.Coherent []) (node : Node) (hraw : node.rawText? = none)
    (hw : b.Waits → node.isValue = true) (hc : (b.place node).Clean) (lead : Lead) :
    (b.place node).Heeds (node.lead lead) := by
  unfold Assembly.place at hc ⊢
  split at hc <;> rename_i hb
  case h_7 =>
    unfold Assembly.placeTagName at hc ⊢
    split at hc
    · next hp =>
      rw [if_pos hp]
      exact heeds_of_context (congrArg _ (enter_context ..))
    · exact absurd ((extends_abortTag _).clean ((extends_placeContent ..).clean hc))
        (not_clean_report _ _ _)
  case h_8 => exact heeds_placeInTag (enter_context ..) hraw
  case h_9 => exact heeds_placeInTag hb hraw
  case h_10 part sep drop =>
    split at hc
    · next hd =>
      have hdrop := h.keeps_names
      rw [hb, Context.discards] at hdrop
      rw [hdrop, Bool.false_and] at hd
      exact absurd hd Bool.false_ne_true
    · next hd =>
      rw [if_neg hd]
      exact heeds_placeInTag (enter_context ..) hraw
  case h_11 => exact heeds_placeBeforeValue hb hw
  all_goals exact heeds_placeContent (by rw [hb]; rfl) node

/-- What waits after a name has been settled waited before. -/
theorem Waits.of_settle {location : Span} (h : (b.settle location).Waits) : b.Waits := by
  have hb := h.1
  unfold Assembly.settle at h hb
  cases hx : b.context with
  | tagName part =>
    rw [hx] at hb
    cases part with
    | empty =>
      dsimp only at hb
      cases ht : b.tag with
      | none =>
        unfold abortTag at hb
        have ht' : (b.report location .controlFlowInTagName).tag = none := ht
        rw [ht'] at hb
        cases hx.symm.trans hb
      | some tag =>
        rw [abortTag_context (b := b.report location .controlFlowInTagName) ht] at hb
        unfold TagDraft.outside at hb
        split at hb <;> cases hb
    | static | dynamic => cases (enter_context ..).symm.trans hb
  | attrName part sep drop =>
    rw [hx] at hb
    cases (enter_context ..).symm.trans hb
  | _ =>
    rw [hx] at h
    exact h

/-- Control flow leaves no name open. -/
theorem heeds_placeFlow (hs : b.context.isSettled = true) (flow : Flow) {exit : Context}
    (hl : Context.Leads b.context exit) (hw : b.Waits → exit = .beforeAttrName) :
    (b.placeFlow flow exit).Heeds lead := by
  unfold Assembly.placeFlow
  cases hb : b.context with
  | beforeAttrValue =>
    rw [hb] at hl
    dsimp only
    split
    · exact heeds_of_context (congrArg _ (enter_context ..))
    · next hne =>
      refine heeds_of_attr ?_
      rw [enter_attr, addAmongAttrs_attr]
      exact Classical.byContradiction fun hne' => hne (hw ⟨hb, hne'⟩)
  | tagName | attrName => rw [hb] at hs; cases hs
  | _ =>
    rw [hb] at hl
    refine heeds_of_context ?_
    rw [enter_context]
    cases exit <;> first | rfl | cases hl

end Operations

end Assembly

/-! ## 2. The pass -/

open Assembly in
mutual

/-- **Nodes that are fed come after those before them, in their order.** -/
theorem feedNodes_sequence : ∀ (nodes : List Node) (b : Assembly) (run : Option RawRun)
    {lead : Lead}, b.Coherent [] → b.Heeds lead →
    timely (lead.past (run.elim [] RawRun.text)) nodes = true → (feedNodes b run nodes).Clean →
    (feedNodes b run nodes).sequence = b.sequence ++ sequence nodes
  | [], b, run, lead, hcoh, _, _, hc => by
    rw [feedNodes] at hc ⊢
    rw [hcoh.sequence_readCollected hc, sequence_nil, List.append_nil]
  | n :: nodes, b, run, lead, hcoh, h, ht, hc => by
    rw [feedNodes] at hc ⊢
    rw [timely, Bool.and_eq_true] at ht
    rw [sequence_cons]
    cases hraw : n.rawText? with
    | some text =>
      obtain ⟨id, location, rfl⟩ : ∃ id location, n = .raw id location text := by
        cases n <;> simp [Node.rawText?] at hraw
        subst hraw
        exact ⟨_, _, rfl⟩
      simp only [hraw] at hc ⊢
      have hc' := (feedNodes_extends nodes _ _).clean hc
      obtain ⟨lead', h', hover⟩ := h.collect hcoh hc'
      have hnodes := feedNodes_sequence nodes _ _ (hcoh.collect hc') h' (by
        rw [Option.elim_some, hover]
        exact ht.2) hc
      rw [hnodes, hcoh.sequence_collect hc', Node.sequence_raw, List.nil_append]
    | none =>
      simp only [hraw] at hc ⊢
      have hc' := (feedNodes_extends nodes _ _).clean hc
      have hc'' := (feedNode_extends n _).clean hc'
      have hread := hcoh.readCollected hc''
      obtain ⟨hn, h'⟩ := feedNode_sequence n _ hraw hread (h.readCollected hcoh hc'') ht.1 hc'
      have hnodes := feedNodes_sequence nodes _ none (feedNode_coherent n _ hread hc') h' ht.2 hc
      rw [hnodes, hn, hcoh.sequence_readCollected hc'', List.append_assoc]

theorem feedNode_sequence : ∀ (n : Node) (b : Assembly) {lead : Lead}, n.rawText? = none →
    b.Coherent [] → b.Heeds lead → n.timely lead = true → (feedNode b n).Clean →
    (feedNode b n).sequence = b.sequence ++ n.sequence ∧ (feedNode b n).Heeds (n.lead lead)
  | .call id location callee params, b, lead, _, hcoh, h, ht, hc => by
    rw [Node.timely] at ht
    rw [feedNode] at hc ⊢
    obtain ⟨hown, -⟩ := rewriteParams_keeps params b.ledger
    have hparams := rewriteParams_sequence params b.ledger ht
      ((extends_place ..).clean ((extends_reach ..).clean hc))
    generalize rewriteParams b.ledger params = r at *
    dsimp only at hc hown hparams ⊢
    rw [Node.sequence_call, ← hown, ← hparams, ← Node.sequence_call]
    exact ⟨(hcoh.ledger r.2).sequence_place (fun _ => rfl) hc,
      (hcoh.ledger r.2).heeds_place (.call id location callee r.1) rfl (fun _ => rfl) hc lead⟩
  | .binding id location var value, b, lead, _, hcoh, h, ht, hc => by
    rw [Node.timely, Bool.and_eq_true, bne_iff_ne] at ht
    rw [feedNode] at hc ⊢
    obtain ⟨hown, -⟩ := rewriteValue_keeps value b.ledger .letContent location
    have hvalue := rewriteValue_sequence value b.ledger .letContent location ht.2
      ((extends_place ..).clean ((extends_reach ..).clean hc))
    generalize rewriteValue b.ledger .letContent location value = r at *
    dsimp only at hc hown hvalue ⊢
    rw [Node.sequence_binding, ← hown, ← hvalue, ← Node.sequence_binding]
    have hwaits : ¬ Waits { b with ledger := r.2 } := fun hw => ht.1 (h.waits hw)
    exact ⟨(hcoh.ledger r.2).sequence_place (fun hw => absurd hw hwaits) hc,
      (hcoh.ledger r.2).heeds_place (.binding id location var r.1) rfl
        (fun hw => absurd hw hwaits) hc lead⟩
  | .flow flow, b, lead, _, hcoh, h, ht, hc => by
    rw [Node.timely, Bool.and_eq_true] at ht
    rw [feedNode] at hc ⊢
    have hflow := (extends_placeFlow ..).clean ((extends_reach ..).clean hc)
    have hsettle := (rewriteFlow_extends flow _ _).clean hflow
    obtain ⟨hcoh', hset⟩ := hcoh.settle flow.location hsettle
    have hleads := rewriteFlow_leads flow _ _ hset (Ledger.Clean.quiet hflow)
    obtain ⟨hown, -⟩ := rewriteFlow_keeps flow (b.settle flow.location).ledger
      (b.settle flow.location).context
    have hbranches := rewriteFlow_sequence flow (b.settle flow.location).ledger
      (b.settle flow.location).context hset ht.2 hflow
    -- control flow in the place of a value gives one
    have hexit (hw : (b.settle flow.location).Waits) :
        (rewriteFlow (b.settle flow.location).ledger (b.settle flow.location).context flow).2.1
          = .beforeAttrName := by
      have hlead := h.waits (hw.of_settle)
      rw [hlead] at ht
      rw [hw.1] at hleads hflow ⊢
      refine hleads.resolve_left fun hx => ?_
      have hoffers := rewriteFlow_offers flow _ hflow hx
      rw [hoffers] at ht
      exact absurd ht.1 nofun
    rw [← hcoh.sequence_settle flow.location hsettle]
    generalize rewriteFlow (b.settle flow.location).ledger (b.settle flow.location).context flow = r
      at *
    dsimp only at hc hown hbranches hexit ⊢
    rw [Node.sequence_flow, ← hown, ← hbranches, ← Node.sequence_flow]
    exact ⟨(hcoh'.ledger r.2.2).sequence_placeFlow hset r.1 hexit,
      heeds_placeFlow (b := { b.settle flow.location with ledger := r.2.2 }) hset r.1 hleads hexit⟩
  | .raw .., b, lead, hraw, hcoh, h, ht, hc => by cases hraw
  | .print .., b, lead, hraw, hcoh, h, ht, hc | .openTag .., b, lead, hraw, hcoh, h, ht, hc
  | .closeTag .., b, lead, hraw, hcoh, h, ht, hc | .attr .., b, lead, hraw, hcoh, h, ht, hc
  | .attrValue .., b, lead, hraw, hcoh, h, ht, hc | .comment .., b, lead, hraw, hcoh, h, ht, hc => by
    rw [feedNode] at hc ⊢
    · have hw := fun hw => Node.isValue_of_timely (h.waits hw ▸ ht) hraw nofun
      exact ⟨hcoh.sequence_place hw hc, hcoh.heeds_place _ hraw hw hc lead⟩
    all_goals simp

theorem rewriteFlow_sequence : ∀ (flow : Flow) (l : Ledger) (entry : Context),
    entry.isSettled = true → flow.timely = true → (rewriteFlow l entry flow).2.2.Clean →
    inTurn (walkBranches (rewriteFlow l entry flow).1.branches)
      = inTurn (walkBranches flow.branches)
  | ⟨id, location, head, branches⟩, l, entry, hs, ht, hc => by
    rw [Flow.timely] at ht
    rw [rewriteFlow] at hc ⊢
    dsimp only at hc ⊢
    split at hc
    · next hd => rw [if_pos hd]
    · next hd =>
      rw [if_neg hd]
      have hclean := (reconcile_extends { (rewriteBranches { l with depth := l.depth + 1 } entry
        location.start branches).2.2 with depth := l.depth } location head entry _).clean hc
      exact rewriteBranches_sequence branches _ entry location.start hs ht hclean

theorem rewriteBranches_sequence : ∀ (branches : List Branch) (l : Ledger) (entry : Context)
    (offset : Nat), entry.isSettled = true → timelyBranches branches = true →
    (rewriteBranches l entry offset branches).2.2.Clean →
    inTurn (walkBranches (rewriteBranches l entry offset branches).1)
      = inTurn (walkBranches branches)
  | [], l, entry, offset, _, _, _ => by rw [rewriteBranches]
  | branch :: branches, l, entry, offset, hs, ht, hc => by
    rw [timelyBranches, Bool.and_eq_true] at ht
    rw [rewriteBranches] at hc ⊢
    dsimp only at hc ⊢
    have hc' := (rewriteBranches_extends ..).clean hc
    rw [walkBranches, walkBranches, inTurn_append, inTurn_append,
      rewriteBranch_sequence branch l entry offset hs ht.1 hc',
      rewriteBranches_sequence branches _ entry offset hs ht.2 hc]

theorem rewriteBranch_sequence : ∀ (branch : Branch) (l : Ledger) (entry : Context) (offset : Nat),
    entry.isSettled = true → branch.timely = true →
    (rewriteBranch l entry offset branch).2.2.Clean →
    inTurn (rewriteBranch l entry offset branch).1.walk = inTurn branch.walk
  | ⟨id, kind, nodes⟩, l, entry, offset, hs, ht, hc => by
    rw [Branch.timely] at ht
    rw [rewriteBranch] at hc ⊢
    dsimp only at hc ⊢
    have hc' := (Assembly.extends_endBranch _).clean hc
    have hcoh := Assembly.coherent_start l.countBranch true offset hs
    have hfed := feedNodes_coherent nodes _ none hcoh hc'
    have hclosed := Assembly.closed_endBranch
      (feedNodes (.start l.countBranch entry true offset) none nodes)
    calc inTurn (walk (feedNodes (.start l.countBranch entry true offset) none nodes).endBranch.nodes)
        = (feedNodes (.start l.countBranch entry true offset) none nodes).endBranch.sequence :=
          hclosed.sequence.symm
      _ = (feedNodes (.start l.countBranch entry true offset) none nodes).sequence :=
          hfed.sequence_endBranch
      _ = sequence nodes := feedNodes_sequence nodes _ none hcoh (heeds_start _ _ _ _) ht hc'

theorem rewriteParams_sequence : ∀ (params : List Param) (l : Ledger),
    timelyParams params = true → (rewriteParams l params).2.Clean →
    inTurn (walkParams (rewriteParams l params).1) = inTurn (walkParams params)
  | [], l, _, _ => by rw [rewriteParams]
  | p :: params, l, ht, hc => by
    rw [timelyParams, Bool.and_eq_true] at ht
    rw [rewriteParams] at hc ⊢
    dsimp only at hc ⊢
    have hc' := (rewriteParams_extends ..).clean hc
    rw [walkParams, walkParams, inTurn_append, inTurn_append,
      rewriteParam_sequence p l ht.1 hc', rewriteParams_sequence params _ ht.2 hc]

theorem rewriteParam_sequence : ∀ (p : Param) (l : Ledger), p.timely = true →
    (rewriteParam l p).2.Clean → inTurn (rewriteParam l p).1.walk = inTurn p.walk
  | ⟨id, location, name, value⟩, l, ht, hc => by
    rw [Param.timely] at ht
    rw [rewriteParam] at hc ⊢
    exact rewriteValue_sequence value l .paramContent location ht hc

theorem rewriteValue_sequence : ∀ (value : Value) (l : Ledger) (block : BlockKind)
    (location : Span), value.timely = true → (rewriteValue l block location value).2.Clean →
    inTurn (rewriteValue l block location value).1.walk = inTurn value.walk
  | .expr expr, l, block, location, _, _ => by rw [rewriteValue]
  | .content kind nodes, l, block, location, ht, hc => by
    rw [Value.timely] at ht
    rw [rewriteValue] at hc ⊢
    dsimp only at hc ⊢
    cases he : Context.entry? (declaredOrHtml kind) with
    | none =>
      rw [he] at hc
      exact enterNodes_sequence nodes _ ht hc
    | some entry =>
      rw [he] at hc
      have hc' := (extends_endBlock _ block).clean hc
      have hcoh := coherent_start l.countBlock false location.start (Context.isSettled_of_entry? he)
      have hfed := feedNodes_coherent nodes _ none hcoh hc'
      have hclosed := closed_closeDrafts
        ((feedNodes (.start l.countBlock entry false location.start) none nodes).checkContext block)
      calc inTurn (walk
            ((feedNodes (.start l.countBlock entry false location.start) none nodes).endBlock block).nodes)
          = ((feedNodes (.start l.countBlock entry false location.start) none nodes).endBlock
              block).sequence := hclosed.sequence.symm
        _ = (feedNodes (.start l.countBlock entry false location.start) none nodes).sequence :=
            hfed.sequence_endBlock block
        _ = sequence nodes := feedNodes_sequence nodes _ none hcoh (heeds_start _ _ _ _) ht hc'

theorem enterNodes_sequence : ∀ (nodes : List Node) (l : Ledger) {lead : Lead},
    timely lead nodes = true → (enterNodes l nodes).2.Clean →
    sequence (enterNodes l nodes).1 = sequence nodes
  | [], l, lead, _, _ => by rw [enterNodes]
  | n :: nodes, l, lead, ht, hc => by
    rw [timely, Bool.and_eq_true] at ht
    rw [enterNodes] at hc ⊢
    dsimp only at hc ⊢
    have hc' := (enterNodes_extends ..).clean hc
    rw [sequence_cons, sequence_cons, enterNode_sequence n l ht.1 hc',
      enterNodes_sequence nodes _ ht.2 hc]

theorem enterNode_sequence : ∀ (n : Node) (l : Ledger) {lead : Lead}, n.timely lead = true →
    (enterNode l n).2.Clean → (enterNode l n).1.sequence = n.sequence
  | .call id location callee params, l, lead, ht, hc => by
    rw [Node.timely] at ht
    rw [enterNode] at hc ⊢
    obtain ⟨hown, -⟩ := rewriteParams_keeps params l
    dsimp only at hc ⊢
    rw [Node.sequence_call, Node.sequence_call, hown, rewriteParams_sequence params l ht hc]
  | .binding id location var value, l, lead, ht, hc => by
    rw [Node.timely, Bool.and_eq_true] at ht
    rw [enterNode] at hc ⊢
    obtain ⟨hown, -⟩ := rewriteValue_keeps value l .letContent location
    dsimp only at hc ⊢
    rw [Node.sequence_binding, Node.sequence_binding, hown,
      rewriteValue_sequence value l .letContent location ht.2 hc]
  | .flow flow, l, lead, ht, hc => by
    rw [Node.timely, Bool.and_eq_true] at ht
    rw [enterNode] at hc ⊢
    obtain ⟨hown, -⟩ := enterFlow_keeps flow l
    dsimp only at hc ⊢
    rw [Node.sequence_flow, Node.sequence_flow, hown, enterFlow_sequence flow l ht.2 hc]
  | .raw .., l, _, _, _ | .print .., l, _, _, _ | .openTag .., l, _, _, _ | .closeTag .., l, _, _, _
  | .attr .., l, _, _, _ | .attrValue .., l, _, _, _ | .comment .., l, _, _, _ => by
    rw [enterNode]
    all_goals simp

theorem enterFlow_sequence : ∀ (flow : Flow) (l : Ledger), flow.timely = true →
    (enterFlow l flow).2.Clean →
    inTurn (walkBranches (enterFlow l flow).1.branches) = inTurn (walkBranches flow.branches)
  | ⟨id, location, head, branches⟩, l, ht, hc => by
    rw [Flow.timely] at ht
    rw [enterFlow] at hc ⊢
    exact enterBranches_sequence branches l ht hc

theorem enterBranches_sequence : ∀ (branches : List Branch) (l : Ledger),
    timelyBranches branches = true → (enterBranches l branches).2.Clean →
    inTurn (walkBranches (enterBranches l branches).1) = inTurn (walkBranches branches)
  | [], l, _, _ => by rw [enterBranches]
  | branch :: branches, l, ht, hc => by
    rw [timelyBranches, Bool.and_eq_true] at ht
    rw [enterBranches] at hc ⊢
    dsimp only at hc ⊢
    have hc' := (enterBranches_extends ..).clean hc
    rw [walkBranches, walkBranches, inTurn_append, inTurn_append,
      enterBranch_sequence branch l ht.1 hc', enterBranches_sequence branches _ ht.2 hc]

theorem enterBranch_sequence : ∀ (branch : Branch) (l : Ledger), branch.timely = true →
    (enterBranch l branch).2.Clean →
    inTurn (enterBranch l branch).1.walk = inTurn branch.walk
  | ⟨id, kind, nodes⟩, l, ht, hc => by
    rw [Branch.timely] at ht
    rw [enterBranch] at hc ⊢
    exact enterNodes_sequence nodes l ht hc

end

/-! ## 3. Templates -/

/-- A block whose rewriting reports nothing is evaluated in the same order. -/
theorem rewriteBlock_sequence {config : Config} {kind : ContentKind} {block : BlockKind}
    {location : Span} {ids : IdSource} {nodes : List Node} (ht : timely .none nodes = true)
    (hclean : (rewriteBlock config kind block location ids nodes).diagnostics = []) :
    sequence (rewriteBlock config kind block location ids nodes).result = sequence nodes := by
  have h := rewriteValue_sequence (.content (some kind) nodes) (.start config ids) block location ht
    (List.reverse_eq_nil_iff.mp hclean)
  unfold rewriteBlock
  dsimp only
  cases hv : (rewriteValue (.start config ids) block location (.content (some kind) nodes)).1 with
  | expr e =>
    rw [hv] at h
    exact h
  | content k l =>
    rw [hv] at h
    exact h

/-- **Order of evaluation.**  If nothing is reported, the prints, calls, bindings and control flow of
the rewritten template stand in the order in which they stood before, at every depth and with the
fields they had; as long as the value of an attribute with a computed name stands right after its
`=`. -/
theorem Template.rewrite_sequence {t : Template} (ht : timely .none t.nodes = true)
    {config : Config} {ids : IdSource} (hclean : (t.rewrite config ids).diagnostics = []) :
    sequence (t.rewrite config ids).result.nodes = sequence t.nodes :=
  rewriteBlock_sequence ht hclean

/-- Control flow that gives the value of a computed name, and a binding between attributes, are
evaluated in their turn. -/
theorem Template.rewrite_sequence_computedNames :
    ∃ t ids, Template.read ("<a \x7b$n\x7d=\x7bif $c\x7d\"x\x7b$y\x7d\"\x7belse\x7d\"z\"\x7b/if\x7d "
        ++ "\x7blet $x: 1 /\x7d \x7b$m\x7d=\"v\x7b$x\x7d\">\x7b$x\x7d</a>").toList .html
        (.startingAt 1) = .ok (t, ids)
      ∧ timely .none t.nodes = true ∧ (t.rewrite {} ids).diagnostics = []
      ∧ sequence (t.rewrite {} ids).result.nodes = sequence t.nodes := by
  have hcheck : (Template.read ("<a \x7b$n\x7d=\x7bif $c\x7d\"x\x7b$y\x7d\"\x7belse\x7d\"z\"\x7b/if\x7d "
      ++ "\x7blet $x: 1 /\x7d \x7b$m\x7d=\"v\x7b$x\x7d\">\x7b$x\x7d</a>").toList .html
      (.startingAt 1)).toOption.any (fun r =>
        timely .none r.1.nodes && (r.1.rewrite {} r.2).diagnostics.isEmpty) = true := by
    decide +kernel
  obtain ⟨⟨t, ids⟩, hread, hcheck⟩ := exists_ok_of_any hcheck
  simp only [Bool.and_eq_true, List.isEmpty_iff] at hcheck
  exact ⟨t, ids, hread, hcheck.1, hcheck.2, Template.rewrite_sequence hcheck.1 hcheck.2⟩

/-- In `<a {$n}={let $x: 1 /}"v">` the binding stands where the value of a computed name is due.
Nothing is reported, and it comes to stand before the attribute, so before the name. -/
theorem Template.rewrite_sequence_bindingBeforeValue :
    ∃ t ids, Template.read "<a \x7b$n\x7d=\x7blet $x: 1 /\x7d\"v\">".toList .html (.startingAt 1)
        = .ok (t, ids)
      ∧ (t.rewrite {} ids).diagnostics = []
      ∧ (sequence t.nodes).map Node.id = [⟨2⟩, ⟨4⟩]
      ∧ (sequence (t.rewrite {} ids).result.nodes).map Node.id = [⟨4⟩, ⟨2⟩] := by
  have hcheck : (Template.read "<a \x7b$n\x7d=\x7blet $x: 1 /\x7d\"v\">".toList .html
      (.startingAt 1)).toOption.any (fun r =>
        (r.1.rewrite {} r.2).diagnostics.isEmpty
          && (sequence r.1.nodes).map Node.id == [⟨2⟩, ⟨4⟩]
          && (sequence (r.1.rewrite {} r.2).result.nodes).map Node.id == [⟨4⟩, ⟨2⟩]) = true := by
    decide +kernel
  obtain ⟨⟨t, ids⟩, hread, hcheck⟩ := exists_ok_of_any hcheck
  simp only [Bool.and_eq_true, List.isEmpty_iff, beq_iff_eq] at hcheck
  exact ⟨t, ids, hread, hcheck.1.1, hcheck.1.2, hcheck.2⟩

end TemplateMarkup
