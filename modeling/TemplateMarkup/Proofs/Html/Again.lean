/-
# Rewriting again

A run that reports nothing leaves lasting nodes wherever they are durable, branch by branch and
block by block (`Value.lasting_of_durable`).  So a second run over its result reports nothing and
changes nothing (`Template.rewrite_rewrite`).

Where the result is not durable the second run may report what the first has let pass: a tag that
the end of the template has closed, if it opens an element whose body is text
(`Template.rewrite_rewrite_openScript`), and text that reads as a close tag once it stands alone
(`Template.rewrite_rewrite_doubledClose`).
-/
import TemplateMarkup.Proofs.Html.TracedPlacing
import TemplateMarkup.Proofs.Html.Reread

namespace TemplateMarkup

/-! ## 1. Branches that agree -/

/-- Branches of which nothing has been reported agree. -/
theorem agreed?_of_clean {l : Ledger} {location : Span} {head : FlowHead} {entry : Context}
    {exits : Exits} (h : (reconcile l location head entry exits).2.Clean) :
    agreed? head entry exits = some (reconcile l location head entry exits).1 := by
  have hloop (command : String) (exits : Exits) (l : Ledger)
      (h : (reconcileLoop l location command entry exits).Clean) :
      ∀ e ∈ exits, e.2.kind = entry.kind := by
    induction exits generalizing l with
    | nil => simp
    | cons e exits ih =>
      obtain ⟨kind, exit⟩ := e
      unfold reconcileLoop at h
      have hclean := (reconcileLoop_extends ..).clean h
      split at h
      · next hkind =>
        intro e he
        rcases List.mem_cons.mp he with rfl | he
        · exact hkind
        · exact ih _ h e he
      · next hkind =>
        rw [if_neg hkind] at hclean
        split at hclean <;> exact absurd hclean (Ledger.not_clean_report _ _ _)
  unfold reconcile at h ⊢
  unfold agreed?
  by_cases hhead : head.isLoop = true
  · rw [if_pos hhead] at h
    rw [if_pos hhead, if_pos hhead, if_pos]
    exact List.all_eq_true.mpr fun e he => beq_iff_eq.mpr (hloop _ _ _ h e he)
  · rw [if_neg hhead] at h
    rw [if_neg hhead, if_neg hhead]
    dsimp only at h ⊢
    generalize (exits.map Prod.snd
      ++ if exits.any fun e => e.1 == .default then [] else [entry]) = all at h ⊢
    cases all with
    | nil => rfl
    | cons first others =>
      dsimp only at h ⊢
      rw [if_pos]
      unfold reconcileChoice at h
      cases hfind : (first :: others).find? fun exit => exit.kind != first.kind with
      | none =>
        refine List.all_eq_true.mpr fun e he => ?_
        have := List.find?_eq_none.mp hfind e (List.mem_cons_of_mem _ he)
        simpa using this
      | some other =>
        rw [hfind] at h
        exact absurd h (Ledger.not_clean_report _ _ _)

/-- Branches that agree end in contexts of the class of the one after them. -/
theorem kind_of_agreed? {head : FlowHead} {entry exit : Context} {exits : Exits}
    (h : agreed? head entry exits = some exit) : ∀ e ∈ exits, e.2.kind = exit.kind := by
  unfold agreed? at h
  intro e he
  split at h
  · split at h
    · next hall =>
      cases h
      exact beq_iff_eq.mp (List.all_eq_true.mp hall e he)
    · cases h
  · have hmem : e.2 ∈ exits.map Prod.snd
        ++ if exits.any fun e => e.1 == .default then [] else [entry] :=
      List.mem_append_left _ (List.mem_map_of_mem he)
    split at h
    · next hexits =>
      rw [hexits] at hmem
      cases hmem
    · next first others hexits =>
      rw [hexits] at hmem
      split at h
      · next hall =>
        cases h
        rcases List.mem_cons.mp hmem with hmem | hmem
        · rw [hmem]
        · exact beq_iff_eq.mp (List.all_eq_true.mp hall _ hmem)
      · cases h

/-- Branches that all end where they begin agree. -/
theorem agreed?_of_forall {head : FlowHead} {entry : Context} {exits : Exits}
    (h : ∀ e ∈ exits, e.2 = entry) : agreed? head entry exits = some entry := by
  have hall : ∀ other ∈ exits.map Prod.snd
      ++ (if exits.any fun e => e.1 == .default then [] else [entry]), other = entry := by
    intro other hother
    rcases List.mem_append.mp hother with hother | hother
    · obtain ⟨e, he, rfl⟩ := List.mem_map.mp hother
      exact h e he
    · split at hother
      · cases hother
      · exact List.mem_singleton.mp hother
  unfold agreed?
  split
  · rw [if_pos]
    exact List.all_eq_true.mpr fun e he => by rw [h e he]; exact beq_self_eq_true _
  · split
    · rfl
    · next first others hexits =>
      rw [hexits] at hall
      obtain rfl := hall first List.mem_cons_self
      rw [if_pos]
      exact List.all_eq_true.mpr fun other hother => by
        rw [hall other (List.mem_cons_of_mem _ hother)]
        exact beq_self_eq_true _

/-! ## 2. The pass -/

namespace Assembly

section

variable {room : Nat} {b : Assembly} {held rest : Text}

theorem Traced.setLedger (h : b.Traced room held rest) (l : Ledger) :
    ({ b with ledger := l } : Assembly).Traced room held rest := ⟨h.content, h.attrs, h.slot⟩

theorem Traced.setOffset (h : b.Traced room held rest) (offset : Nat) :
    ({ b with offset := offset } : Assembly).Traced room held rest := ⟨h.content, h.attrs, h.slot⟩

theorem Traced.readCollected {run : Option RawRun} (h : ∀ rest, b.Traced room [] rest)
    (hcoh : b.Coherent []) (hc : (b.readCollected run).Clean) :
    (b.readCollected run).Traced room [] [] := by
  cases run with
  | none => exact h []
  | some run =>
    exact (Traced.read (b := { b with ledger := b.ledger.countRun }) ((h run.text).setLedger _)
      hcoh.restrict_nil hc).setOffset _

end

end Assembly

open Assembly

mutual

/-- **Along a run that reports nothing the finished nodes are lasting.** -/
theorem feedNodes_traced : ∀ (nodes : List Node) (b : Assembly) (run : Option RawRun) {room : Nat},
    b.ledger.config.joinText = true → b.ledger.depth + room = b.ledger.config.maxDepth →
    b.Coherent [] → (∀ rest, b.Traced room [] rest) → (feedNodes b run nodes).Clean →
    (feedNodes b run nodes).Traced room [] []
  | [], b, run, room, _, _, hcoh, h, hc => by
    rw [feedNodes] at hc ⊢
    exact Traced.readCollected h hcoh hc
  | n :: nodes, b, run, room, hjoin, hroom, hcoh, h, hc => by
    rw [feedNodes] at hc ⊢
    cases ht : n.rawText? with
    | some text =>
      have hcollect : (b.collect run text n.location).1 = b := by
        unfold Assembly.collect
        cases run with
        | none => rfl
        | some run =>
          dsimp only
          rw [if_pos hjoin]
      simp only [ht] at hc ⊢
      rw [hcollect] at hc ⊢
      exact feedNodes_traced nodes _ _ hjoin hroom hcoh h hc
    | none =>
      simp only [ht] at hc ⊢
      have hc' := (feedNodes_extends nodes _ _).clean hc
      have hc'' := (feedNode_extends n _).clean hc'
      have hext := (extends_readCollected b run).trans (feedNode_extends n _)
      have hledger := (extends_readCollected b run).ledger
      exact feedNodes_traced nodes _ _ (by rw [hext.ledger.config]; exact hjoin)
        (by rw [hext.ledger.config, hext.ledger.depth]; exact hroom)
        (feedNode_coherent n _ (hcoh.readCollected hc'') hc')
        (feedNode_traced n _ ht (by rw [hledger.config]; exact hjoin)
          (by rw [hledger.config, hledger.depth]; exact hroom) (hcoh.readCollected hc'')
          (Traced.readCollected h hcoh hc'') hc') hc

theorem feedNode_traced : ∀ (n : Node) (b : Assembly) {room : Nat}, n.rawText? = none →
    b.ledger.config.joinText = true → b.ledger.depth + room = b.ledger.config.maxDepth →
    b.Coherent [] → b.Traced room [] [] → (feedNode b n).Clean →
    ∀ rest, (feedNode b n).Traced room [] rest
  | .raw .., b, room, hraw, _, _, _, _, _ => by cases hraw
  | .print id location expr, b, room, hraw, _, _, hcoh, h, hc => by
    intro rest
    rw [feedNode] at hc ⊢
    · refine Traced.setOffset (h.place hcoh hraw (fun _ here hhere => ?_) hc rest) _
      have hcontent := hhere.resolve_right fun h => by cases h.2
      rw [Node.lastingFrom?, if_pos hcontent]
      unfold contextAfter?
      rfl
    all_goals simp
  | .call id location callee params, b, room, hraw, hjoin, hroom, hcoh, h, hc => by
    intro rest
    rw [feedNode] at hc ⊢
    have hledger : (rewriteParams b.ledger params).2.Clean :=
      (extends_place ..).clean ((extends_reach ..).clean hc)
    have hparams := rewriteParams_traced params b.ledger hjoin hroom hledger
    generalize rewriteParams b.ledger params = r at *
    refine Traced.setOffset ((h.setLedger r.2).place (hcoh.ledger _) rfl (fun hd here hhere => ?_)
      hc rest) _
    have hcontent := hhere.resolve_right fun h => by cases h.2
    rw [Node.isDurable] at hd
    rw [Node.lastingFrom?, hcontent, hparams hd]
    unfold contextAfter?
    rfl
  | .binding id location var value, b, room, hraw, hjoin, hroom, hcoh, h, hc => by
    intro rest
    rw [feedNode] at hc ⊢
    have hledger : (rewriteValue b.ledger .letContent location value).2.Clean :=
      (extends_place ..).clean ((extends_reach ..).clean hc)
    have hvalue := value.lasting_of_durable b.ledger .letContent location hjoin hroom hledger
    generalize rewriteValue b.ledger .letContent location value = r at *
    refine Traced.setOffset ((h.setLedger r.2).place (hcoh.ledger _) rfl (fun hd here hhere => ?_)
      hc rest) _
    rw [Node.isDurable] at hd
    rw [Node.lastingFrom?, if_pos (hvalue hd)]
    unfold contextAfter?
    rfl
  | .flow f, b, room, hraw, hjoin, hroom, hcoh, h, hc => by
    intro rest
    rw [feedNode] at hc ⊢
    have hflow : (rewriteFlow (b.settle f.location).ledger (b.settle f.location).context
        f).2.2.Clean := (extends_placeFlow ..).clean ((extends_reach ..).clean hc)
    have hsettle : (b.settle f.location).Clean := (rewriteFlow_extends f _ _).clean hflow
    obtain ⟨hcoh', hs⟩ := hcoh.settle f.location hsettle
    have hext := (extends_settle b f.location).ledger
    have hleads := rewriteFlow_leads f _ _ hs (Ledger.Clean.quiet hflow)
    obtain ⟨hhome, hslot⟩ := f.lasting_of_durable (b.settle f.location).ledger
      (b.settle f.location).context (by rw [hext.config]; exact hjoin)
      (by rw [hext.config, hext.depth]; exact hroom) hs hflow
    generalize rewriteFlow (b.settle f.location).ledger (b.settle f.location).context f = r at *
    exact Traced.setOffset (((h.settle hcoh f.location hsettle).setLedger r.2.2).placeFlow
      (hcoh'.ledger _) hs hleads hhome hslot rest) _
  | .openTag .., b, room, hraw, _, _, hcoh, h, hc
  | .closeTag .., b, room, hraw, _, _, hcoh, h, hc
  | .attr .., b, room, hraw, _, _, hcoh, h, hc
  | .attrValue .., b, room, hraw, _, _, hcoh, h, hc
  | .comment .., b, room, hraw, _, _, hcoh, h, hc => by
    intro rest
    rw [feedNode] at hc ⊢
    · refine Traced.setOffset (h.place hcoh hraw (fun _ here _ => ?_) hc rest) _
      rw [Node.lastingFrom?]
      all_goals simp
    all_goals simp

/-- Control flow that reports nothing is lasting where it is durable.  Where a value is due it is so
among attributes, if it gives none. -/
theorem Flow.lasting_of_durable : ∀ (f : Flow) (l : Ledger) (here : Context) {room : Nat},
    l.config.joinText = true → l.depth + room = l.config.maxDepth → here.isSettled = true →
    (rewriteFlow l here f).2.2.Clean →
    ((rewriteFlow l here f).1.isDurable = true → here.isHome = true →
      (rewriteFlow l here f).1.lastingFrom? room here = some (rewriteFlow l here f).2.1)
    ∧ ((rewriteFlow l here f).1.isDurable = true → here = .beforeAttrValue →
      (rewriteFlow l here f).2.1 = .beforeAttrValue →
      (rewriteFlow l here f).1.lastingFrom? room .beforeAttrName = some .beforeAttrName)
  | ⟨id, location, head, branches⟩, l, here, room, hjoin, hroom, hs, hc => by
    rw [rewriteFlow] at hc ⊢
    dsimp only at hc ⊢
    split at hc
    · exact absurd hc (Ledger.not_clean_report _ _ _)
    · next hdepth =>
      rw [if_neg hdepth]
      dsimp only
      have hpos : room ≠ 0 := by omega
      have hdeep : l.depth + 1 + (room - 1) = l.config.maxDepth := by omega
      have hagreed := agreed?_of_clean hc
      have hbranches := rewriteBranches_traced branches { l with depth := l.depth + 1 } here
        location.start hjoin hdeep hs
        ((reconcile_extends { (rewriteBranches { l with depth := l.depth + 1 } here location.start
          branches).2.2 with depth := l.depth } location head here _).clean hc)
      generalize rewriteBranches { l with depth := l.depth + 1 } here location.start branches = r
        at *
      obtain ⟨hhome, hslot⟩ := hbranches
      refine ⟨fun hd hhere => ?_, fun hd hhere hexit => ?_⟩
      · rw [Flow.isDurable] at hd
        rw [Flow.lastingFrom?, if_neg hpos, hhome hd hhere, Option.bind_some, hagreed]
      · rw [Flow.isDurable] at hd
        rw [hexit] at hagreed
        have hall : ∀ e ∈ r.2.1, e.2 = .beforeAttrValue := by
          intro e he
          have hkind := kind_of_agreed? hagreed e he
          cases hx : e.2 <;> rw [hx] at hkind <;> first | rfl | cases hkind
        rw [Flow.lastingFrom?, if_neg hpos, hslot hd hhere hall, Option.bind_some]
        refine agreed?_of_forall fun e he => ?_
        obtain ⟨e', -, rfl⟩ := List.mem_map.mp he
        rfl

/-- So are branches. -/
theorem rewriteBranches_traced : ∀ (branches : List Branch) (l : Ledger) (here : Context)
    (offset : Nat) {room : Nat}, l.config.joinText = true → l.depth + room = l.config.maxDepth →
    here.isSettled = true → (rewriteBranches l here offset branches).2.2.Clean →
    (durableBranches (rewriteBranches l here offset branches).1 = true → here.isHome = true →
      lastingExits? room here (rewriteBranches l here offset branches).1
        = some (rewriteBranches l here offset branches).2.1)
    ∧ (durableBranches (rewriteBranches l here offset branches).1 = true → here = .beforeAttrValue →
      (∀ e ∈ (rewriteBranches l here offset branches).2.1, e.2 = .beforeAttrValue) →
      lastingExits? room .beforeAttrName (rewriteBranches l here offset branches).1
        = some ((rewriteBranches l here offset branches).2.1.map fun e => (e.1, .beforeAttrName)))
  | [], l, here, offset, room, _, _, _, _ => by
    rw [rewriteBranches]
    refine ⟨fun _ _ => by rw [lastingExits?], fun _ _ _ => ?_⟩
    rw [lastingExits?]
    rfl
  | ⟨id, kind, nodes⟩ :: branches, l, here, offset, room, hjoin, hroom, hs, hc => by
    rw [rewriteBranches] at hc ⊢
    dsimp only at hc ⊢
    have hc' := (rewriteBranches_extends branches _ here offset).clean hc
    have hext := rewriteBranch_extends ⟨id, kind, nodes⟩ l here offset
    have hfirst : (rewriteBranch l here offset ⟨id, kind, nodes⟩).1.kind = kind
        ∧ (durableBranches [(rewriteBranch l here offset ⟨id, kind, nodes⟩).1] = true →
          (here.isHome = true → lastingFrom? room here
              (rewriteBranch l here offset ⟨id, kind, nodes⟩).1.nodes
            = some (rewriteBranch l here offset ⟨id, kind, nodes⟩).2.1)
          ∧ (here = .beforeAttrValue →
            (rewriteBranch l here offset ⟨id, kind, nodes⟩).2.1 = .beforeAttrValue →
            lastingFrom? room .beforeAttrName
              (rewriteBranch l here offset ⟨id, kind, nodes⟩).1.nodes = some .beforeAttrName)) := by
      rw [rewriteBranch] at hc' ⊢
      refine ⟨rfl, fun hd => ?_⟩
      dsimp only at hc' hd ⊢
      rw [durableBranches, Bool.and_eq_true] at hd
      have hstart : (start l.countBranch here true offset).Coherent [] := coherent_start _ _ _ hs
      have hclean := (extends_endBranch _).clean hc'
      have htraced := feedNodes_traced nodes (start l.countBranch here true offset) none hjoin hroom
        hstart (traced_start room _ _ _ _) hclean
      have hcoh := feedNodes_coherent nodes _ none hstart hclean
      have := htraced.lasting_endBranch hcoh hc' (by
        unfold durableOut
        exact hd.1)
      rwa [(feedNodes_extends nodes (start l.countBranch here true offset) none).entry] at this
    obtain ⟨hhomes, hslots⟩ := rewriteBranches_traced branches
      (rewriteBranch l here offset ⟨id, kind, nodes⟩).2.2 here offset
      (by rw [hext.config]; exact hjoin) (by rw [hext.config, hext.depth]; exact hroom) hs hc
    generalize rewriteBranch l here offset ⟨id, kind, nodes⟩ = r at *
    generalize rewriteBranches r.2.2 here offset branches = r' at *
    obtain ⟨⟨id', kind', nodes'⟩, exit, l'⟩ := r
    obtain ⟨hkind, hfirst⟩ := hfirst
    dsimp only at hkind hfirst ⊢
    have hdurable (hd : durableBranches (⟨id', kind', nodes'⟩ :: r'.1) = true) :
        durableBranches [⟨id', kind', nodes'⟩] = true ∧ durableBranches r'.1 = true := by
      rw [durableBranches, Bool.and_eq_true] at hd
      rw [durableBranches, durableBranches, hd.1]
      exact ⟨rfl, hd.2⟩
    refine ⟨fun hd hhere => ?_, fun hd hhere hall => ?_⟩
    · obtain ⟨hd, hds⟩ := hdurable hd
      rw [lastingExits?, (hfirst hd).1 hhere, hhomes hds hhere]
      rfl
    · obtain ⟨hd, hds⟩ := hdurable hd
      rw [lastingExits?, (hfirst hd).2 hhere (hall _ List.mem_cons_self),
        hslots hds hhere fun e he => hall e (List.mem_cons_of_mem _ he)]
      rfl

/-- **Content blocks that report nothing are lasting** where they are durable. -/
theorem Value.lasting_of_durable : ∀ (value : Value) (l : Ledger) (block : BlockKind)
    (location : Span) {room : Nat}, l.config.joinText = true →
    l.depth + room = l.config.maxDepth → (rewriteValue l block location value).2.Clean →
    (rewriteValue l block location value).1.isDurable = true →
    (rewriteValue l block location value).1.isLasting room = true
  | .expr expr, l, block, location, room, _, _, _, _ => by
    rw [rewriteValue, Value.isLasting]
  | .content kind nodes, l, block, location, room, hjoin, hroom, hc, hd => by
    rw [rewriteValue] at hc hd ⊢
    dsimp only at hc hd ⊢
    cases hentry : Context.entry? (declaredOrHtml kind) with
    | some entry =>
      rw [hentry] at hc hd
      dsimp only at hc hd ⊢
      rw [Value.isDurable, Bool.and_eq_true, Bool.not_eq_true'] at hd
      rw [Value.isLasting, hentry]
      dsimp only
      have hhome := Context.isHome_of_entry? hentry
      have hstart : (start l.countBlock entry false location.start).Coherent [] :=
        coherent_start _ _ _ (Context.isSettled_of_isHome hhome)
      have hclean := (extends_endBlock _ block).clean hc
      have htraced := feedNodes_traced nodes (start l.countBlock entry false location.start) none
        hjoin hroom hstart (traced_start room _ _ _ _) hclean
      have hcoh := feedNodes_coherent nodes _ none hstart hclean
      have hsame : (feedNodes (start l.countBlock entry false location.start) none nodes).entry
          = entry := (feedNodes_extends nodes _ none).entry
      obtain ⟨final, hfinal, hraw⟩ := htraced.lasting_endBlock hcoh (by rw [hsame]; exact hhome) hc
        (by unfold durableOut; exact hd.1) hd.2
      rw [hsame] at hfinal hraw
      rw [hfinal, Option.any_some]
      rcases hraw with rfl | hraw
      · simp
      · simp [hraw]
    | none =>
      rw [hentry] at hc hd
      dsimp only at hc hd ⊢
      rw [Value.isDurable, Bool.and_eq_true] at hd
      rw [Value.isLasting, hentry]
      exact enterNodes_lasting_of_durable nodes l.countBlock hjoin hroom hc hd.1

theorem rewriteParams_traced : ∀ (params : List Param) (l : Ledger) {room : Nat},
    l.config.joinText = true → l.depth + room = l.config.maxDepth →
    (rewriteParams l params).2.Clean → durableParams (rewriteParams l params).1 = true →
    paramsLast room (rewriteParams l params).1 = true
  | [], l, room, _, _, _, _ => by rw [rewriteParams, paramsLast]
  | ⟨id, location, name, value⟩ :: params, l, room, hjoin, hroom, hc, hd => by
    rw [rewriteParams, rewriteParam] at hc hd ⊢
    dsimp only at hc hd ⊢
    rw [durableParams, Bool.and_eq_true] at hd
    have hc' := (rewriteParams_extends params _).clean hc
    have hext := rewriteValue_extends value l .paramContent location
    rw [paramsLast, Bool.and_eq_true]
    exact ⟨value.lasting_of_durable l .paramContent location hjoin hroom hc' hd.1,
      rewriteParams_traced params _ (by rw [hext.config]; exact hjoin)
        (by rw [hext.config, hext.depth]; exact hroom) hc hd.2⟩

theorem enterNodes_lasting_of_durable : ∀ (nodes : List Node) (l : Ledger) {room : Nat},
    l.config.joinText = true → l.depth + room = l.config.maxDepth →
    (enterNodes l nodes).2.Clean → isDurable (enterNodes l nodes).1 = true →
    blocksLast room (enterNodes l nodes).1 = true
  | [], l, room, _, _, _, _ => by rw [enterNodes, blocksLast]
  | n :: nodes, l, room, hjoin, hroom, hc, hd => by
    rw [enterNodes] at hc hd ⊢
    dsimp only at hc hd ⊢
    rw [isDurable, Bool.and_eq_true, Bool.and_eq_true] at hd
    have hc' := (enterNodes_extends nodes _).clean hc
    have hext := enterNode_extends n l
    rw [blocksLast, Bool.and_eq_true]
    exact ⟨n.enter_lasting_of_durable l hjoin hroom hc' hd.1.1,
      enterNodes_lasting_of_durable nodes _ (by rw [hext.config]; exact hjoin)
        (by rw [hext.config, hext.depth]; exact hroom) hc hd.2⟩

theorem Node.enter_lasting_of_durable : ∀ (n : Node) (l : Ledger) {room : Nat},
    l.config.joinText = true → l.depth + room = l.config.maxDepth →
    (enterNode l n).2.Clean → (enterNode l n).1.isDurable = true →
    (enterNode l n).1.blocksLast room = true
  | .call id location callee params, l, room, hjoin, hroom, hc, hd => by
    rw [enterNode] at hc hd ⊢
    dsimp only at hc hd ⊢
    rw [Node.isDurable] at hd
    rw [Node.blocksLast]
    exact rewriteParams_traced params l hjoin hroom hc hd
  | .binding id location var value, l, room, hjoin, hroom, hc, hd => by
    rw [enterNode] at hc hd ⊢
    dsimp only at hc hd ⊢
    rw [Node.isDurable] at hd
    rw [Node.blocksLast]
    exact value.lasting_of_durable l .letContent location hjoin hroom hc hd
  | .flow f, l, room, hjoin, hroom, hc, hd => by
    rw [enterNode] at hc hd ⊢
    dsimp only at hc hd ⊢
    rw [Node.isDurable] at hd
    rw [Node.blocksLast]
    exact f.enter_lasting_of_durable l hjoin hroom hc hd
  | .raw .., l, room, _, _, _, _ | .print .., l, room, _, _, _, _
  | .openTag .., l, room, _, _, _, _ | .closeTag .., l, room, _, _, _, _
  | .attr .., l, room, _, _, _, _ | .attrValue .., l, room, _, _, _, _
  | .comment .., l, room, _, _, _, _ => by
    rw [enterNode]
    · rw [Node.blocksLast]
      all_goals simp
    all_goals simp

theorem Flow.enter_lasting_of_durable : ∀ (f : Flow) (l : Ledger) {room : Nat},
    l.config.joinText = true → l.depth + room = l.config.maxDepth →
    (enterFlow l f).2.Clean → (enterFlow l f).1.isDurable = true →
    (enterFlow l f).1.blocksLast room = true
  | ⟨id, location, head, branches⟩, l, room, hjoin, hroom, hc, hd => by
    rw [enterFlow] at hc hd ⊢
    dsimp only at hc hd ⊢
    rw [Flow.isDurable] at hd
    rw [Flow.blocksLast]
    exact enterBranches_lasting_of_durable branches l hjoin hroom hc hd

theorem enterBranches_lasting_of_durable : ∀ (branches : List Branch) (l : Ledger) {room : Nat},
    l.config.joinText = true → l.depth + room = l.config.maxDepth →
    (enterBranches l branches).2.Clean → durableBranches (enterBranches l branches).1 = true →
    branchesBlocksLast room (enterBranches l branches).1 = true
  | [], l, room, _, _, _, _ => by rw [enterBranches, branchesBlocksLast]
  | ⟨id, kind, nodes⟩ :: branches, l, room, hjoin, hroom, hc, hd => by
    rw [enterBranches, enterBranch] at hc hd ⊢
    dsimp only at hc hd ⊢
    rw [durableBranches, Bool.and_eq_true] at hd
    have hc' := (enterBranches_extends branches _).clean hc
    have hext := enterNodes_extends nodes l
    rw [branchesBlocksLast, Bool.and_eq_true]
    exact ⟨enterNodes_lasting_of_durable nodes l hjoin hroom hc' hd.1,
      enterBranches_lasting_of_durable branches _ (by rw [hext.config]; exact hjoin)
        (by rw [hext.config, hext.depth]; exact hroom) hc hd.2⟩

end

/-! ## 3. Templates -/

/-- No text in the template meets a close tag that it would be, and no content block ends in the
body of an element. -/
def Template.isDurable (t : Template) : Bool := Value.isDurable (.content (some t.kind) t.nodes)

/-- **A second run changes nothing.**  If the first one reports nothing and leaves a durable
template, the second one reports nothing either, and the nodes come out as they are but for places;
the outline and the source text are the same. -/
theorem Template.rewrite_rewrite {t : Template} {config : Config} {ids : IdSource}
    (hjoin : config.joinText = true) (hquiet : (t.rewrite config ids).diagnostics = [])
    (hdurable : (t.rewrite config ids).result.isDurable = true) (ids' : IdSource) :
    ((t.rewrite config ids).result.rewrite config ids').diagnostics = []
      ∧ bare ((t.rewrite config ids).result.rewrite config ids').result.nodes
        = bare (t.rewrite config ids).result.nodes
      ∧ shape ((t.rewrite config ids).result.rewrite config ids').result.nodes
        = shape (t.rewrite config ids).result.nodes
      ∧ source ((t.rewrite config ids).result.rewrite config ids').result.nodes
        = source (t.rewrite config ids).result.nodes := by
  refine Template.rewrite_lasting ?_ ids'
  have hrun : ∃ l, rewriteValue (.start config ids) .template t.location
      (.content (some t.kind) t.nodes)
      = (.content (some t.kind) (t.rewrite config ids).result.nodes, l) ∧ l.Clean := by
    unfold Template.rewrite rewriteBlock at hquiet ⊢
    rw [rewriteValue] at hquiet ⊢
    dsimp only at hquiet ⊢
    cases hentry : Context.entry? (declaredOrHtml (some t.kind)) <;> rw [hentry] at hquiet <;>
      exact ⟨_, rfl, List.reverse_eq_nil_iff.mp hquiet⟩
  obtain ⟨l, hrun, hclean⟩ := hrun
  have := Value.lasting_of_durable (.content (some t.kind) t.nodes) (.start config ids) .template
    t.location hjoin (Nat.zero_add config.maxDepth) (by rw [hrun]; exact hclean)
    (by rw [hrun]; exact hdurable)
  rw [hrun] at this
  exact this

/-- The template `<script>x</script><a b='{$y}'{if $c} d{/if}>{if $c}<b/>{else}z{/if}` as it is
read. -/
def scriptAndIf : Template where
  id := default
  location := default
  name := []
  kind := .html
  params := []
  nodes :=
    [.raw default default "<script>x</script><a b='".toList, .print default default "$y".toList,
      .raw default default ['\''],
      .flow ⟨default, default, .ifThen,
        [⟨default, .cond "$c".toList, [.raw default default " d".toList]⟩]⟩,
      .raw default default ['>'],
      .flow ⟨default, default, .ifThen,
        [⟨default, .cond "$c".toList, [.raw default default "<b/>".toList]⟩,
          ⟨default, .default, [.raw default default ['z']]⟩]⟩]

theorem Template.rewrite_rewrite_scriptAndIf :
    (scriptAndIf.rewrite {} (.startingAt 0)).diagnostics = []
      ∧ (scriptAndIf.rewrite {} (.startingAt 0)).result.isDurable = true
      ∧ ((scriptAndIf.rewrite {} (.startingAt 0)).result.rewrite {}
          (.startingAt 40)).diagnostics = []
      ∧ shape ((scriptAndIf.rewrite {} (.startingAt 0)).result.rewrite {}
          (.startingAt 40)).result.nodes
        = shape (scriptAndIf.rewrite {} (.startingAt 0)).result.nodes := by
  have hquiet : (scriptAndIf.rewrite {} (.startingAt 0)).diagnostics = [] := by decide +kernel
  have hdurable : (scriptAndIf.rewrite {} (.startingAt 0)).result.isDurable = true := by
    decide +kernel
  have hagain := Template.rewrite_rewrite rfl hquiet hdurable (.startingAt 40)
  exact ⟨hquiet, hdurable, hagain.1, hagain.2.2.1⟩

/-- Of `<script` the first run reports nothing.  The second one is given an open tag, whose element
it enters and finds without an end. -/
theorem Template.rewrite_rewrite_openScript :
    ∃ r, rewriteSource? "<script".toList = some r ∧ r.diagnostics = []
      ∧ (r.result.rewrite {} r.ids).diagnostics ≠ [] := by
  have hcheck : ((rewriteSource? "<script".toList).any fun r =>
      r.diagnostics.isEmpty && !(r.result.rewrite {} r.ids).diagnostics.isEmpty) = true := by
    decide +kernel
  obtain ⟨r, hr, hcheck⟩ := (Option.any_eq_true _ _).mp hcheck
  simp only [Bool.and_eq_true, List.isEmpty_iff, Bool.not_eq_true', List.isEmpty_eq_false_iff]
    at hcheck
  exact ⟨r, hr, hcheck⟩

/-- Of `<script>x</script</script>` the first run reports nothing.  The second one is given the text
`x</script`, which is a close tag when it stands alone. -/
theorem Template.rewrite_rewrite_doubledClose :
    ∃ r, rewriteSource? "<script>x</script</script>".toList = some r ∧ r.diagnostics = []
      ∧ (r.result.rewrite {} r.ids).diagnostics ≠ [] := by
  have hcheck : ((rewriteSource? "<script>x</script</script>".toList).any fun r =>
      r.diagnostics.isEmpty && !(r.result.rewrite {} r.ids).diagnostics.isEmpty) = true := by
    decide +kernel
  obtain ⟨r, hr, hcheck⟩ := (Option.any_eq_true _ _).mp hcheck
  simp only [Bool.and_eq_true, List.isEmpty_iff, Bool.not_eq_true', List.isEmpty_eq_false_iff]
    at hcheck
  exact ⟨r, hr, hcheck⟩

end TemplateMarkup
