/-
# Branches that agree on where they end

Control flow goes on in one context, whichever branch is taken.  Branches are compared by the class
of the context in which they end, and a class forgets how far a tag has been read
(`Context.kind`); `Reconciled` says that nothing is lost by it, and what is reported when branches
disagree.

What carries the proof is that names are settled at both ends: before control flow the name that is
being read ends, and no branch ends in one, because in a tag name a tag is under construction
(`Assembly.hasTag`).  This holds at every moment of every run, whatever has been reported before
(`Moment.Tagged`), so it holds where a run goes on after a fault as well.
-/
import TemplateMarkup.Proofs.Html.Moments
import TemplateMarkup.Proofs.Html.Safe

namespace TemplateMarkup

/-! ## 1. Names before control flow -/

namespace Moment

/-- In a tag name a tag is under construction, and control flow stands where no name is being
read. -/
def Tagged : Moment → Prop
  | between b _ _ | reading b .. => b.hasTag = true
  | marked b _ _ l mark left _ _ =>
    ∃ c cs, left = c :: cs ∧ l = b.context.lexeme c cs ∧ l.mark = some mark ∧ b.hasTag = true
  | atFlow b _ _ => b.context.isSettled = true
  | closing .. | closed _ => True

theorem tagged_collecting {b : Assembly} (h : b.hasTag = true) (run : Option RawRun) (text : Text)
    (location : Span) (nodes : List Node) : (collecting b run text location nodes).Tagged := by
  unfold collecting
  split
  · exact h
  · split
    · exact h
    · exact h

theorem tagged_lexing {b : Assembly} (h : b.hasTag = true) (run : RawRun) (pos : Nat)
    (held : Option Held) (c : Char) (cs : Text) (later : Option RawRun) (nodes : List Node) :
    (lexing b run pos held c cs later nodes).Tagged := by
  unfold lexing
  dsimp only
  split
  · next hm =>
    refine Assembly.hasTag_of_context ?_
    rw [Assembly.enter_context]
    exact Assembly.isTagName_of_content (Context.lexeme_move ..) hm
  · next mark hm =>
    have hcontext : ((b.reportLexeme (run.location pos (pos + max (Text.size
        ((c :: cs).take (b.context.lexeme c cs).width)) c.utf8Size))
          (b.context.lexeme c cs)).release run held pos).context = b.context := by
      rw [Assembly.release_context, Assembly.reportLexeme_context]
    refine ⟨c, cs, rfl, by rw [hcontext], hm, ?_⟩
    exact Assembly.hasTag_congr h hcontext (by rw [Assembly.release_tag, Assembly.reportLexeme_tag])

theorem tagged_node {b : Assembly} (h : b.hasTag = true) {run : Option RawRun} {n : Node}
    {nodes : List Node} {m : Moment} (hn : (between b run (n :: nodes)).next = some m) :
    m.Tagged := by
  cases ht : n.rawText? with
  | some text =>
    obtain rfl : collecting b run text n.location nodes = m := by
      cases run <;> simpa only [next, ht, Option.some.injEq] using hn
    exact tagged_collecting h ..
  | none =>
    cases run with
    | some run =>
      obtain rfl : begin b run none (n :: nodes) = m := by
        simpa only [next, ht, Option.some.injEq] using hn
      exact h
    | none =>
      cases n with
      | raw => simp [Node.rawText?] at ht
      | flow flow =>
        cases hn
        exact Assembly.isSettled_settle h flow.location
      | print | call | binding | openTag | closeTag | attr | attrValue | comment =>
        cases hn
        exact (feedNodeGuarded_eq _ b h).2

/-- **A tag name has its tag at every moment if it has it at the one before**, whatever is
reported. -/
theorem Tagged.next {m m' : Moment} (h : m.Tagged) (hn : m.next = some m') : m'.Tagged := by
  cases m with
  | between b run nodes =>
    cases nodes with
    | nil =>
      cases run with
      | none =>
        cases hn
        trivial
      | some run =>
        cases hn
        exact h
    | cons n nodes => exact tagged_node h hn
  | reading b run pos held left later nodes =>
    cases left with
    | nil =>
      cases hn
      exact Assembly.hasTag_congr h (Assembly.release_context ..) (Assembly.release_tag ..)
    | cons c cs =>
      cases hn
      exact tagged_lexing h ..
  | marked b run pos l mark left later nodes =>
    obtain ⟨c, cs, rfl, rfl, hm, hb⟩ := h
    cases hn
    exact Assembly.hasTag_apply _ _ hb (Context.lexeme_move b.context c cs) hm
  | atFlow b flow nodes =>
    cases hn
    exact Assembly.hasTag_of_context
      (Assembly.isTagName_placeFlow (rewriteFlowGuarded_eq flow b.ledger b.context h).2 _)
  | closing b draft stop =>
    cases draft <;> cases hn <;> trivial
  | closed b => cases hn

theorem Arises.tagged {m : Moment} (h : m.Arises) : m.Tagged := by
  induction h with
  | block ledger offset nodes hk => exact hasTag_start _ (Context.isSettled_of_entry? hk) ..
  | branch ledger nodes _ _ ih => exact hasTag_start _ ih ..
  | next _ hn ih => exact ih.next hn

end Moment

/-! ## 2. What the branches give -/

/-- Branches are put together one by one, and keep their names and kinds. -/
theorem rewriteBranches_kinds : ∀ (branches : List Branch) (l : Ledger) (entry : Context)
    (offset : Nat),
    (rewriteBranches l entry offset branches).2.1.map Prod.fst = branches.map Branch.kind
      ∧ (rewriteBranches l entry offset branches).1.map (fun branch => (branch.id, branch.kind))
        = branches.map fun branch => (branch.id, branch.kind)
  | [], l, entry, offset => by
    rw [rewriteBranches]
    exact ⟨rfl, rfl⟩
  | ⟨id, kind, nodes⟩ :: branches, l, entry, offset => by
    rw [rewriteBranches, rewriteBranch]
    obtain ⟨hexits, hbranches⟩ := rewriteBranches_kinds branches
      (feedNodes (.start l.countBranch entry true offset) none nodes).endBranch.ledger entry offset
    exact ⟨congrArg (kind :: ·) hexits, congrArg ((id, kind) :: ·) hbranches⟩

/-! ## 3. Reconciling -/

/-- The contexts in which control flow that is no loop is left: where its branches end, and where it
stands if no branch has to be taken. -/
def Flow.ways (f : Flow) (entry : Context) (exits : Exits) : List Context :=
  exits.map Prod.snd ++ if f.branches.any fun branch => branch.kind == .default then [] else [entry]

/-- What is reported of a branch of a loop that ends in another context than it began in. -/
def loopFault (command : String) (entry : Context) : BranchKind × Context → Fault
  | (.loopBody, exit) => .loopChangesContext entry.name exit.name
  | (_, exit) => .branchesDisagree command entry.name exit.name

/-- A loop reports each of its branches that ends elsewhere, in order. -/
theorem reconcileLoop_diagnostics (location : Span) (command : String) {entry : Context}
    (he : entry.isSettled = true) : ∀ (exits : Exits) (l : Ledger),
    (∀ e ∈ exits, e.2.isSettled = true) →
    (reconcileLoop l location command entry exits).diagnostics
      = ((exits.filter fun e => e.2 ≠ entry).map fun e =>
          (⟨location, loopFault command entry e⟩ : Diagnostic)).reverse ++ l.diagnostics
  | [], l, _ => rfl
  | (kind, exit) :: exits, l, h => by
    obtain ⟨hexit, hexits⟩ := List.forall_mem_cons.mp h
    have ih := reconcileLoop_diagnostics location command he exits
    unfold reconcileLoop
    by_cases hk : exit = entry
    · rw [if_pos (congrArg Context.kind hk), ih l hexits,
        List.filter_cons_of_neg (by simpa using hk)]
    · rw [if_neg (fun hkind => hk (Context.eq_of_kind hexit he hkind)),
        List.filter_cons_of_pos (by simpa using hk), List.map_cons, List.reverse_cons,
        List.append_assoc]
      cases kind <;> exact ih _ hexits

/-- A choice reports once, and one of the contexts that differ from the first. -/
theorem reconcileChoice_diagnostics (l : Ledger) (location : Span) (command : String)
    {first : Context} (hfirst : first.isSettled = true) {ways : List Context}
    (h : ∀ way ∈ ways, way.isSettled = true) :
    ((∀ way ∈ ways, way = first) →
        (reconcileChoice l location command first ways).diagnostics = l.diagnostics)
      ∧ ((∃ way ∈ ways, way ≠ first) → ∃ other ∈ ways, other ≠ first
        ∧ (reconcileChoice l location command first ways).diagnostics
          = ⟨location, .branchesDisagree command first.name other.name⟩ :: l.diagnostics) := by
  unfold reconcileChoice
  cases hfind : ways.find? fun way => way.kind != first.kind with
  | none =>
    refine ⟨fun _ => rfl, ?_⟩
    rintro ⟨way, hmem, hne⟩
    have hkind := List.find?_eq_none.mp hfind way hmem
    exact absurd (Context.eq_of_kind (h way hmem) hfirst (by simpa using hkind)) hne
  | some other =>
    have hmem := List.mem_of_find?_eq_some hfind
    have hother : other ≠ first := by
      rintro rfl
      simpa using List.find?_some hfind
    exact ⟨fun hall => absurd (hall other hmem) hother, fun _ => ⟨other, hmem, hother, rfl⟩⟩

/-- **What control flow makes of its branches.**  The branches of `f` have been read from `entry`;
they end in `exits` and leave the ledger `inner`.  What is reported of the control flow itself
stands before what is reported in its branches, because the latest comes first. -/
structure Reconciled (f : Flow) (l : Ledger) (entry : Context) (exits : Exits) (inner : Ledger)
    (rebuilt : Flow) (exit : Context) (after : Ledger) : Prop where
  /-- No branch ends in a name. -/
  settled : ∀ e ∈ exits, e.2.isSettled = true
  /-- Contexts of one class are the same. -/
  same : ∀ way ∈ entry :: exits.map Prod.snd, ∀ other ∈ entry :: exits.map Prod.snd,
    way.kind = other.kind → way = other
  /-- There is an exit for each branch. -/
  kinds : exits.map Prod.fst = f.branches.map Branch.kind
  /-- Nothing but the nodes in the branches is changed. -/
  frame : rebuilt.id = f.id ∧ rebuilt.location = f.location ∧ rebuilt.head = f.head
    ∧ rebuilt.branches.map (fun branch => (branch.id, branch.kind))
      = f.branches.map fun branch => (branch.id, branch.kind)
  /-- A choice goes on where its first branch ends. -/
  choice : f.head.isLoop = false → exit = (exits.head?.map Prod.snd).getD entry
  /-- A choice whose branches agree reports nothing. -/
  agreed : f.head.isLoop = false → (∀ way ∈ f.ways entry exits, way = exit) →
    after.diagnostics = inner.diagnostics
  /-- A choice whose branches disagree reports it once. -/
  disagreed : f.head.isLoop = false → (∃ way ∈ f.ways entry exits, way ≠ exit) →
    ∃ other ∈ f.ways entry exits, other ≠ exit
      ∧ after.diagnostics
        = ⟨f.location, .branchesDisagree f.head.command exit.name other.name⟩ :: inner.diagnostics
  /-- A loop goes on where it stands, and reports each branch that ends elsewhere. -/
  loop : f.head.isLoop = true → exit = entry
    ∧ after.diagnostics = ((exits.filter fun e => e.2 ≠ entry).map fun e =>
        (⟨f.location, loopFault f.head.command entry e⟩ : Diagnostic)).reverse ++ inner.diagnostics
  depth : after.depth = l.depth

/-- The ways out of control flow are the contexts that `reconcile` compares. -/
theorem Flow.ways_eq (f : Flow) (entry : Context) {exits : Exits}
    (h : exits.map Prod.fst = f.branches.map Branch.kind) :
    f.ways entry exits
      = exits.map Prod.snd ++ if exits.any fun e => e.1 == .default then [] else [entry] := by
  have hany : (f.branches.any fun branch => branch.kind == .default)
      = exits.any fun e => e.1 == .default := by
    have hkinds := congrArg (List.any · (· == BranchKind.default)) h
    simp only [List.any_map, Function.comp_def] at hkinds
    exact hkinds.symm
  rw [Flow.ways, hany]

/-- A choice compares its first way out with all of them. -/
theorem reconcile_choice (l : Ledger) (location : Span) {head : FlowHead} (hh : head.isLoop = false)
    (entry : Context) (exits : Exits) :
    (reconcile l location head entry exits).2
      = reconcileChoice l location head.command ((exits.head?.map Prod.snd).getD entry)
        (exits.map Prod.snd ++ if exits.any fun e => e.1 == .default then [] else [entry]) := by
  unfold reconcile
  rw [hh]
  cases exits with
  | nil => simp [reconcileChoice]
  | cons e exits => simp

/-- Every way out of control flow is settled, if it stands where no name is being read and no branch
ends in one. -/
theorem Flow.isSettled_ways (f : Flow) {entry : Context} (he : entry.isSettled = true)
    {exits : Exits} (hexits : ∀ e ∈ exits, e.2.isSettled = true) :
    ∀ way ∈ f.ways entry exits, way.isSettled = true := by
  intro way hway
  rcases List.mem_append.mp hway with hway | hway
  · obtain ⟨e, hmem, rfl⟩ := List.mem_map.mp hway
    exact hexits e hmem
  · split at hway
    · cases hway
    · rw [List.mem_singleton.mp hway]
      exact he

/-- What `reconcile` makes of branches that have been read. -/
theorem reconciled_reconcile {id : NodeId} {location : Span} {head : FlowHead}
    {branches rebuilt : List Branch} (l : Ledger) {entry : Context}
    (he : entry.isSettled = true) {exits : Exits} (inner : Ledger)
    (hexits : ∀ e ∈ exits, e.2.isSettled = true)
    (hkinds : exits.map Prod.fst = branches.map Branch.kind)
    (hframe : rebuilt.map (fun branch => (branch.id, branch.kind))
      = branches.map fun branch => (branch.id, branch.kind)) :
    Reconciled ⟨id, location, head, branches⟩ l entry exits inner ⟨id, location, head, rebuilt⟩
      (reconcile { inner with depth := l.depth } location head entry exits).1
      (reconcile { inner with depth := l.depth } location head entry exits).2 := by
  have hall : ∀ way ∈ entry :: exits.map Prod.snd, way.isSettled = true := by
    rintro way (_ | ⟨_, hmem⟩)
    · exact he
    · obtain ⟨e, he, rfl⟩ := List.mem_map.mp hmem
      exact hexits e he
  have hfirst : ((exits.head?.map Prod.snd).getD entry).isSettled = true := by
    cases exits with
    | nil => exact he
    | cons e exits => exact hexits e List.mem_cons_self
  have hways := Flow.ways_eq ⟨id, location, head, branches⟩ entry hkinds
  have hchoice (hh : head.isLoop = false) :
      (reconcile { inner with depth := l.depth } location head entry exits).1
        = (exits.head?.map Prod.snd).getD entry := by
    rw [reconcile_exit, hh]
    rfl
  have hreports (hh : head.isLoop = false) := reconcileChoice_diagnostics
    { inner with depth := l.depth } location head.command hfirst
    (Flow.isSettled_ways ⟨id, location, head, branches⟩ he hexits)
  refine
    { settled := hexits
      same := fun way hmem other hmem' => Context.eq_of_kind (hall way hmem) (hall other hmem')
      kinds := hkinds
      frame := ⟨rfl, rfl, rfl, hframe⟩
      choice := hchoice
      agreed := fun hh hagree => ?_
      disagreed := fun hh hdis => ?_
      loop := fun hh => ?_
      depth := (reconcile_extends ..).depth }
  · rw [hchoice hh] at hagree
    rw [reconcile_choice _ _ hh, ← hways]
    exact (hreports hh).1 hagree
  · rw [hchoice hh] at hdis ⊢
    rw [reconcile_choice _ _ hh, ← hways]
    exact (hreports hh).2 hdis
  · have hh' : head.isLoop = true := hh
    refine ⟨by rw [reconcile_exit, hh']; rfl, ?_⟩
    unfold reconcile
    rw [hh']
    exact reconcileLoop_diagnostics location head.command he exits _ hexits

/-- **Control flow reconciles its branches exactly**, and it stands where no name is being read. -/
theorem rewriteFlow_reconciles (f : Flow) :
    (∀ (b : Assembly) (later : List Node), Moment.Arises (.atFlow b f later) →
        b.context.isSettled = true)
      ∧ ∀ (l : Ledger) (entry : Context), entry.isSettled = true → l.depth < l.config.maxDepth →
        Reconciled f l entry
          (rewriteBranches { l with depth := l.depth + 1 } entry f.location.start f.branches).2.1
          (rewriteBranches { l with depth := l.depth + 1 } entry f.location.start f.branches).2.2
          (rewriteFlow l entry f).1 (rewriteFlow l entry f).2.1 (rewriteFlow l entry f).2.2 := by
  refine ⟨fun b later h => h.tagged, fun l entry he hd => ?_⟩
  obtain ⟨id, location, head, branches⟩ := f
  obtain ⟨hkinds, hframe⟩ :=
    rewriteBranches_kinds branches { l with depth := l.depth + 1 } entry location.start
  have hexits :=
    (rewriteBranchesGuarded_eq branches { l with depth := l.depth + 1 } entry location.start he).2
  rw [rewriteFlow]
  dsimp only
  rw [if_neg (Nat.not_le.mpr hd)]
  exact reconciled_reconcile l he _ hexits hkinds hframe

/-- The control flow of `{if $c}<script>{elseif $d}<style>{/if}`. -/
def openers : Flow :=
  ⟨default, ⟨0, 42, by decide⟩, .ifThen,
    [⟨default, .cond "$c".toList, [.raw default ⟨7, 15, by decide⟩ "<script>".toList]⟩,
      ⟨default, .cond "$d".toList, [.raw default ⟨27, 34, by decide⟩ "<style>".toList]⟩]⟩

/-- There are three ways out of it, all different, and one report. -/
theorem rewriteFlow_reconciles_openers :
    Moment.Arises (.atFlow (.start (.start {} (.startingAt 0)) .pcdata false 0) openers [])
      ∧ (rewriteFlow (.start {} (.startingAt 0)) .pcdata openers).2.1 = .rcdata .script
      ∧ ∃ other : Context, other ≠ .rcdata .script
        ∧ (rewriteFlow (.start {} (.startingAt 0)) .pcdata openers).2.2.diagnostics
          = [⟨openers.location, .branchesDisagree "if" "script" other.name⟩] := by
  have harises : Moment.Arises
      (.atFlow (.start (.start {} (.startingAt 0)) .pcdata false 0) openers []) :=
    (@Moment.Arises.block .html _ (.start {} (.startingAt 0)) 0 [.flow openers] rfl).next rfl
  have hsettled := (rewriteFlow_reconciles openers).1 _ _ harises
  have hrec := (rewriteFlow_reconciles openers).2 (.start {} (.startingAt 0)) .pcdata hsettled
    (by decide)
  have hexit : (rewriteFlow (.start {} (.startingAt 0)) .pcdata openers).2.1 = .rcdata .script := by
    decide +kernel
  have hquiet : (rewriteBranches { Ledger.start {} (.startingAt 0) with depth := 1 } .pcdata
      openers.location.start openers.branches).2.2.diagnostics = [] := by decide +kernel
  obtain ⟨other, -, hne, hdiagnostics⟩ :=
    hrec.disagreed rfl ⟨.pcdata, by decide +kernel, by rw [hexit]; nofun⟩
  rw [hexit] at hne hdiagnostics
  exact ⟨harises, hexit, other, hne, hdiagnostics.trans (congrArg (_ :: ·) hquiet)⟩

end TemplateMarkup
