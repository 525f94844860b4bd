/-
# Branches that stand for a value

If a branch that stands for a value goes on where it began, none of its nodes gave one
(`Assembly.Standing`), and control flow that gives one (`Flow.offers`) goes on in the tag
(`rewriteFlow_offers`).
-/
import TemplateMarkup.Proofs.Html.Sequenced
import TemplateMarkup.Proofs.Html.Standing

namespace TemplateMarkup

/-- Raw text of blanks gives no value. -/
theorem Node.offers_of_idle {n : Node} {t : Text} (hn : n.rawText? = some t) (ht : t.Idle) :
    n.offers = false := by
  cases n with
  | raw id location t' =>
    obtain rfl : t' = t := Option.some.inj hn
    rw [Node.offers, List.any_eq_false]
    intro c hc
    simp [ht c hc]
  | _ => cases hn

mutual

/-- **A branch that still waits has read blanks and nodes that give no value.** -/
theorem feedNodes_standing : ∀ (nodes : List Node) (b : Assembly) (run : Option RawRun),
    b.Standing → b.Coherent [] → (feedNodes b run nodes).Clean →
    (feedNodes b run nodes).Standing
      ∧ ((feedNodes b run nodes).context = .beforeAttrValue →
        b.context = .beforeAttrValue ∧ (∀ r, run = some r → Text.Idle r.text)
          ∧ offersValue nodes = false)
  | [], b, run, h, hcoh, hc => by
    rw [feedNodes] at hc ⊢
    obtain ⟨hstand, hback⟩ := h.readCollected hcoh hc
    exact ⟨hstand, fun hx => ⟨(hback hx).1, (hback hx).2, rfl⟩⟩
  | n :: nodes, b, run, h, hcoh, hc => by
    rw [feedNodes] at hc ⊢
    cases ht : n.rawText? with
    | some text =>
      simp only [ht] at hc ⊢
      have hc' := (feedNodes_extends nodes _ _).clean hc
      obtain ⟨hstand, hback⟩ := h.collect hcoh hc'
      obtain ⟨hstand', hback'⟩ := feedNodes_standing nodes _ _ hstand (hcoh.collect hc') hc
      refine ⟨hstand', fun hx => ?_⟩
      obtain ⟨hb, hrun, hnodes⟩ := hback' hx
      obtain ⟨hb', hrun', htext⟩ := hback hb (hrun _ rfl)
      refine ⟨hb', hrun', ?_⟩
      rw [offersValue, hnodes, Bool.or_false]
      exact Node.offers_of_idle ht htext
    | none =>
      simp only [ht] at hc ⊢
      have hc' := (feedNodes_extends nodes _ _).clean hc
      have hc'' := (feedNode_extends n _).clean hc'
      have hread := hcoh.readCollected hc''
      obtain ⟨hstand, hback⟩ := h.readCollected hcoh hc''
      obtain ⟨hstand', hback'⟩ := feedNode_standing n _ ht hstand hread hc'
      obtain ⟨hstand'', hback''⟩ := feedNodes_standing nodes _ none hstand'
        (feedNode_coherent n _ hread hc') hc
      refine ⟨hstand'', fun hx => ?_⟩
      obtain ⟨hb, -, hnodes⟩ := hback'' hx
      obtain ⟨hb', hn⟩ := hback' hb
      obtain ⟨hb'', hrun⟩ := hback hb'
      refine ⟨hb'', hrun, ?_⟩
      rw [offersValue, hn, hnodes]
      rfl

theorem feedNode_standing : ∀ (n : Node) (b : Assembly), n.rawText? = none → b.Standing →
    b.Coherent [] → (feedNode b n).Clean →
    (feedNode b n).Standing ∧ ((feedNode b n).context = .beforeAttrValue →
      b.context = .beforeAttrValue ∧ n.offers = false)
  | .call id location callee params, b, _, h, hcoh, hc => by
    rw [feedNode] at hc ⊢
    obtain ⟨hstand, hback⟩ := (h.ledger _).place_node (hcoh.ledger _) hc
    exact ⟨hstand.reach _, fun hx => ⟨(hback hx).1, by cases (hback hx).2⟩⟩
  | .binding id location var value, b, _, h, hcoh, hc => by
    rw [feedNode] at hc ⊢
    obtain ⟨hstand, hback⟩ := (h.ledger _).place_node (hcoh.ledger _) hc
    exact ⟨hstand.reach _, fun hx => ⟨(hback hx).1, by rw [Node.offers, Node.isValue] <;> simp⟩⟩
  | .flow flow, b, _, h, hcoh, hc => by
    rw [feedNode] at hc ⊢
    rw [h.settle] at hc ⊢
    have hc' := (Assembly.extends_placeFlow ..).clean ((Assembly.extends_reach ..).clean hc)
    have hclean : b.Clean := (rewriteFlow_extends flow _ _).clean hc'
    obtain ⟨-, hset⟩ := hcoh.settle flow.location (by rwa [h.settle])
    rw [h.settle] at hset
    have hleads := rewriteFlow_leads flow _ _ hset (Ledger.Clean.quiet hc')
    have hoffers (hb : b.context = .beforeAttrValue) :
        (rewriteFlow b.ledger b.context flow).2.1 = .beforeAttrValue → flow.offers = false := by
      rw [hb] at hc' ⊢
      exact rewriteFlow_offers flow _ hc'
    generalize rewriteFlow b.ledger b.context flow = r at *
    obtain ⟨hstand, hback⟩ := (h.ledger r.2.2).placeFlow r.1 (hcoh.ledger _) hleads
    refine ⟨hstand.reach _, fun hx => ⟨(hback hx).1, ?_⟩⟩
    rw [Node.offers]
    exact hoffers (hback hx).1 (hback hx).2
  | .raw .., b, hraw, h, hcoh, hc => by cases hraw
  | .print .., b, _, h, hcoh, hc | .openTag .., b, _, h, hcoh, hc
  | .closeTag .., b, _, h, hcoh, hc | .attr .., b, _, h, hcoh, hc
  | .attrValue .., b, _, h, hcoh, hc | .comment .., b, _, h, hcoh, hc => by
    rw [feedNode] at hc ⊢
    · obtain ⟨hstand, hback⟩ := h.place_node hcoh hc
      exact ⟨hstand.reach _, fun hx => ⟨(hback hx).1, by rw [Node.offers, (hback hx).2] <;> simp⟩⟩
    all_goals simp

/-- **Control flow that gives a value goes on in the tag.** -/
theorem rewriteFlow_offers : ∀ (flow : Flow) (l : Ledger),
    (rewriteFlow l .beforeAttrValue flow).2.2.Clean →
    (rewriteFlow l .beforeAttrValue flow).2.1 = .beforeAttrValue → flow.offers = false
  | ⟨id, location, head, branches⟩, l, hc, hx => by
    rw [rewriteFlow] at hc hx
    dsimp only at hc hx
    split at hc
    · exact absurd hc (Ledger.not_clean_report _ _ _)
    · next hd =>
      rw [if_neg hd] at hx
      have hc' := (reconcile_extends _ location head _ _).clean hc
      rw [Flow.offers]
      dsimp only at hx
      rw [reconcile_exit] at hx
      split at hx
      · next hloop => rw [hloop]; rfl
      · cases branches with
        | nil => rw [firstOffers, Bool.and_false]
        | cons branch branches =>
          rw [rewriteBranches] at hc' hx
          have hbranch := (rewriteBranches_extends branches _ _ _).clean hc'
          rw [firstOffers, rewriteBranch_offers branch _ _ hbranch hx, Bool.and_false]

theorem rewriteBranch_offers : ∀ (branch : Branch) (l : Ledger) (offset : Nat),
    (rewriteBranch l .beforeAttrValue offset branch).2.2.Clean →
    (rewriteBranch l .beforeAttrValue offset branch).2.1 = .beforeAttrValue →
    branch.offers = false
  | ⟨id, kind, nodes⟩, l, offset, hc, hx => by
    rw [rewriteBranch] at hc hx
    dsimp only at hc hx
    have hc' := (Assembly.extends_endBranch _).clean hc
    have hcoh : (Assembly.start l.countBranch .beforeAttrValue true offset).Coherent [] :=
      Assembly.coherent_start _ true offset rfl
    obtain ⟨hstand, hback⟩ := feedNodes_standing nodes _ none
      (Assembly.standing_start l.countBranch true offset) hcoh hc'
    have hcoh' := feedNodes_coherent nodes _ none hcoh hc'
    rw [Branch.offers]
    exact (hback (hstand.endBranch hcoh' hx)).2.2

end

end TemplateMarkup
