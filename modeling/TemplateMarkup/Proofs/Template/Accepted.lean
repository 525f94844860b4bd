/-
# What is read is derived

While a body is read, what has been derived of it is a derivation that is not finished: for every
open construct the parts that are finished and the opening command of the one that is not
(`Opened`), and the items around it.  A command that ends a body closes the innermost construct or
leads on to its next part (`Opened.endPart`), any other token adds an item or opens a construct, so
every state of a reading is what has been read after an unfinished derivation of the tokens
(`Body.derived_of_readScan`).

A source is therefore accepted if and only if it can be cut into tokens and the grammar derives
them, and the template is the tree of the derivation (`Template.read_iff_derived`).
-/
import TemplateMarkup.Proofs.Template.Derivation
import TemplateMarkup.Tree.Walk

namespace TemplateMarkup

/-! ## 1. What ends a part -/

theorem of_expectClose_ok {α : Type} {ids : IdSource} {name : String} {command : Command}
    {location : Span} {f : Unit → Except Rejection α} {r : α}
    (h : (expectClose ids name command location >>= f) = .ok r) :
    command = .close name.toList ∧ f () = .ok r := by
  unfold expectClose at h
  split at h
  · next hc => exact ⟨hc, h⟩
  · cases h

theorem of_expectBlank_ok {α : Type} {ids : IdSource} {name : String} {nodes : List Node}
    {f : Unit → Except Rejection α} {r : α}
    (h : (expectBlank ids name nodes >>= f) = .ok r) : AllBlank nodes ∧ f () = .ok r := by
  cases he : expectBlank ids name nodes with
  | error e => rw [he] at h; cases h
  | ok u => rw [he] at h; exact ⟨expectBlank_eq_ok.mp he, h⟩

namespace Body

section

variable {ids : IdSource} {params : List ParamDecl} {inner outer : List Node}
  {opener location : Span} {frames : List (Frame × List Node)} {command : Command} {b' : Body}

/-- A branch ends before a branch that may follow it, or with the control flow. -/
theorem of_endPart_inBranch {done : List Branch} {kind : BranchKind} {head : FlowHead}
    (hfollow : MayFollow done kind head)
    (h : (inBranch ids params inner opener done kind head outer frames).endPart command location
      = .ok b') :
    (∃ expr, command = head.clauseCommand expr ∧ head.isLoop = false ∧ kind ≠ .default
        ∧ b' = inBranch ids.rest params [] opener (⟨ids.next, kind, inner.reverse⟩ :: done)
          (.cond expr) head outer frames)
      ∨ (command = head.lastCommand ∧ kind ≠ .default
        ∧ b' = inBranch ids.rest params [] opener (⟨ids.next, kind, inner.reverse⟩ :: done)
          .default head outer frames)
      ∨ (command = .close head.command.toList
        ∧ b' = ⟨ids.rest.rest, params, .flow ⟨ids.rest.next, opener.union location, head,
          done.reverse ++ [⟨ids.next, kind, inner.reverse⟩]⟩ :: outer, frames⟩) := by
  rw [← List.reverse_cons]
  cases head with
  | ifThen =>
    simp only [inBranch, branchFrame, endPart, Frame.resume] at h
    split at h
    · next expr =>
      split at h <;> cases h
      next hk => exact .inl ⟨expr, rfl, rfl, hk, rfl⟩
    · split at h <;> cases h
      next hk => exact .inr (.inl ⟨rfl, hk, rfl⟩)
    · obtain ⟨hc, h⟩ := of_expectClose_ok h
      cases h
      exact .inr (.inr ⟨hc, rfl⟩)
  | switch e =>
    simp only [inBranch, branchFrame, endPart, Frame.resume] at h
    split at h
    · next expr =>
      split at h <;> cases h
      next hk => exact .inl ⟨expr, rfl, rfl, hk, rfl⟩
    · split at h <;> cases h
      next hk => exact .inr (.inl ⟨rfl, hk, rfl⟩)
    · obtain ⟨hc, h⟩ := of_expectClose_ok h
      cases h
      exact .inr (.inr ⟨hc, rfl⟩)
  | forEach var e =>
    rcases hfollow with ⟨rfl, rfl⟩ | rfl
    · simp only [inBranch, branchFrame, reduceIte, endPart, Frame.resume] at h
      split at h
      · cases h
        exact .inr (.inl ⟨rfl, by decide, rfl⟩)
      · obtain ⟨hc, h⟩ := of_expectClose_ok h
        cases h
        exact .inr (.inr ⟨hc, rfl⟩)
    · simp only [inBranch, branchFrame, reduceCtorEq, reduceIte, endPart, Frame.resume] at h
      obtain ⟨hc, h⟩ := of_expectClose_ok h
      cases h
      exact .inr (.inr ⟨hc, rfl⟩)

/-- Blanks between the parts of a call end before a parameter or with the call. -/
theorem of_endPart_inCall {callee : Text} {args : List Param}
    (h : (inCall ids params inner opener callee args outer frames).endPart command location
      = .ok b') :
    AllBlank inner ∧ ((∃ name expr kind, command = .param name (some expr) kind
        ∧ b' = inCall ids.rest params [] opener callee
          (⟨ids.next, location, name, .expr expr⟩ :: args) outer frames)
      ∨ (∃ name kind, command = .param name none kind
        ∧ b' = ⟨ids, params, [],
          (.paramBody opener callee args location name kind, outer) :: frames⟩)
      ∨ (command = .close "call".toList ∧ b' = ⟨ids.rest, params,
          .call ids.next (opener.union location) callee args.reverse :: outer, frames⟩)) := by
  simp only [inCall, endPart, Frame.resume] at h
  obtain ⟨hblank, h⟩ := of_expectBlank_ok h
  refine ⟨hblank, ?_⟩
  split at h
  · cases h
    exact .inl ⟨_, _, _, rfl, rfl⟩
  · cases h
    exact .inr (.inl ⟨_, _, rfl, rfl⟩)
  · obtain ⟨hc, h⟩ := of_expectClose_ok h
    cases h
    exact .inr (.inr ⟨hc, rfl⟩)

/-- Blanks before the first branch of a `{switch}` end there or with the `{switch}`. -/
theorem of_endPart_inHead {expr : Text}
    (h : (inHead ids params inner opener expr outer frames).endPart command location = .ok b') :
    AllBlank inner ∧ ((∃ e, command = .caseOf e
        ∧ b' = inBranch ids params [] opener [] (.cond e) (.switch expr) outer frames)
      ∨ (command = .default
        ∧ b' = inBranch ids params [] opener [] .default (.switch expr) outer frames)
      ∨ (command = .close "switch".toList ∧ b' = ⟨ids.rest, params,
          .flow ⟨ids.next, opener.union location, .switch expr, []⟩ :: outer, frames⟩)) := by
  simp only [inHead, endPart, Frame.resume] at h
  obtain ⟨hblank, h⟩ := of_expectBlank_ok h
  refine ⟨hblank, ?_⟩
  split at h
  · cases h
    exact .inl ⟨_, rfl, rfl⟩
  · cases h
    exact .inr (.inl ⟨rfl, rfl⟩)
  · obtain ⟨hc, h⟩ := of_expectClose_ok h
    cases h
    exact .inr (.inr ⟨hc, rfl⟩)

end

end Body

/-! ## 2. Derivations that are not finished -/

theorem tokensOfArgs_append (args args' : List Arg) :
    tokensOfArgs (args ++ args') = tokensOfArgs args ++ tokensOfArgs args' := by
  induction args with
  | nil => simp [tokensOfArgs]
  | cons arg args ih => simp [tokensOfArgs, ih]

theorem declaredInArgs_append (args args' : List Arg) :
    declaredInArgs (args ++ args') = declaredInArgs args ++ declaredInArgs args' := by
  induction args with
  | nil => simp [declaredInArgs]
  | cons arg args ih => simp [declaredInArgs, ih]

theorem paramsOf_append (ids : IdSource) (args args' : List Arg) :
    paramsOf ids (args ++ args') = ((paramsOf ids args).1 ++ (paramsOf (paramsOf ids args).2 args').1,
      (paramsOf (paramsOf ids args).2 args').2) := by
  induction args generalizing ids with
  | nil => simp [paramsOf]
  | cons arg args ih => simp [paramsOf, ih]

theorem tokensOfClauses_append (command : Text → Command) (clauses clauses' : List Clause) :
    tokensOfClauses command (clauses ++ clauses')
      = tokensOfClauses command clauses ++ tokensOfClauses command clauses' := by
  induction clauses with
  | nil => simp [tokensOfClauses]
  | cons clause clauses ih => simp [tokensOfClauses, ih]

theorem declaredInClauses_append (clauses clauses' : List Clause) :
    declaredInClauses (clauses ++ clauses')
      = declaredInClauses clauses ++ declaredInClauses clauses' := by
  induction clauses with
  | nil => simp [declaredInClauses]
  | cons clause clauses ih => simp [declaredInClauses, ih]

theorem branchesOf_append (ids : IdSource) (clauses clauses' : List Clause) :
    branchesOf ids (clauses ++ clauses')
      = ((branchesOf ids clauses).1 ++ (branchesOf (branchesOf ids clauses).2 clauses').1,
          (branchesOf (branchesOf ids clauses).2 clauses').2) := by
  induction clauses generalizing ids with
  | nil => simp [branchesOf]
  | cons clause clauses ih => simp [branchesOf, ih]

/-- A construct whose closing command has not been derived, up to its current body.  A part that is
finished is kept with its items; of the part that is current there is its opening command. -/
inductive Opened
  | bindBody (var : Text) (kind : Option ContentKind) (opener : Span)
  /-- Between the parameters. -/
  | call (callee : Text) (opener : Span) (args : List Arg)
  | argBody (callee : Text) (opener : Span) (args : List Arg) (blanks : List Blank) (name : Text)
      (kind : Option ContentKind) (argOpener : Span)
  | ifBody (cond : Text) (opener : Span)
  | elseIfBody (cond : Text) (opener : Span) (body : List Item) (elseIfs : List Clause)
      (expr : Text) (clauseOpener : Span)
  | elseBody (cond : Text) (opener : Span) (body : List Item) (elseIfs : List Clause)
      (lastOpener : Span)
  /-- Before the first branch. -/
  | switchHead (expr : Text) (opener : Span)
  | caseBody (expr : Text) (opener : Span) (blanks : List Blank) (cases : List Clause)
      (caseExpr : Text) (clauseOpener : Span)
  | defaultBody (expr : Text) (opener : Span) (blanks : List Blank) (cases : List Clause)
      (lastOpener : Span)
  | forBody (var expr : Text) (opener : Span)
  | emptyBody (var expr : Text) (opener : Span) (body : List Item) (lastOpener : Span)

namespace Opened

/-- The tokens of what has been derived of it. -/
def tokens : Opened → List Token
  | bindBody var kind opener => [.command (.binding var none kind) opener]
  | call callee opener args => .command (.call callee false) opener :: tokensOfArgs args
  | argBody callee opener args blanks name kind argOpener =>
    .command (.call callee false) opener :: (tokensOfArgs args
      ++ (blanks.map Blank.token ++ [.command (.param name none kind) argOpener]))
  | ifBody cond opener => [.command (.ifThen cond) opener]
  | elseIfBody cond opener body elseIfs expr clauseOpener =>
    .command (.ifThen cond) opener :: (tokensOf body ++ (tokensOfClauses .elseIf elseIfs
      ++ [.command (.elseIf expr) clauseOpener]))
  | elseBody cond opener body elseIfs lastOpener =>
    .command (.ifThen cond) opener :: (tokensOf body ++ (tokensOfClauses .elseIf elseIfs
      ++ [.command .otherwise lastOpener]))
  | switchHead expr opener => [.command (.switch expr) opener]
  | caseBody expr opener blanks cases e clauseOpener =>
    .command (.switch expr) opener :: (blanks.map Blank.token ++ (tokensOfClauses .caseOf cases
      ++ [.command (.caseOf e) clauseOpener]))
  | defaultBody expr opener blanks cases lastOpener =>
    .command (.switch expr) opener :: (blanks.map Blank.token ++ (tokensOfClauses .caseOf cases
      ++ [.command .default lastOpener]))
  | forBody var expr opener => [.command (.forEach var expr) opener]
  | emptyBody var expr opener body lastOpener =>
    .command (.forEach var expr) opener :: (tokensOf body ++ [.command .ifEmpty lastOpener])

/-- What has been read when its current body begins; `b` is the body around it. -/
def enter (b : Body) : Opened → Body
  | bindBody var kind opener => b.enter (.letBody opener var kind)
  | call callee opener args =>
    .inCall (paramsOf b.ids args).2 ((declaredInArgs args).reverse ++ b.params) [] opener callee
      (paramsOf b.ids args).1.reverse b.nodes b.frames
  | argBody callee opener args blanks name kind argOpener =>
    ⟨idsAfterBlanks (paramsOf b.ids args).2 blanks,
      (blanks.flatMap Blank.declared).reverse ++ ((declaredInArgs args).reverse ++ b.params), [],
      (.paramBody opener callee (paramsOf b.ids args).1.reverse argOpener name kind, b.nodes)
        :: b.frames⟩
  | ifBody cond opener => .inBranch b.ids b.params [] opener [] (.cond cond) .ifThen b.nodes b.frames
  | elseIfBody cond opener body elseIfs expr _ =>
    let ids := (nodesOf b.ids body).2
    .inBranch (branchesOf ids.rest elseIfs).2
      ((declaredInClauses elseIfs).reverse ++ ((declaredIn body).reverse ++ b.params)) [] opener
      (⟨ids.next, .cond cond, (nodesOf b.ids body).1⟩ :: (branchesOf ids.rest elseIfs).1).reverse
      (.cond expr) .ifThen b.nodes b.frames
  | elseBody cond opener body elseIfs _ =>
    let ids := (nodesOf b.ids body).2
    .inBranch (branchesOf ids.rest elseIfs).2
      ((declaredInClauses elseIfs).reverse ++ ((declaredIn body).reverse ++ b.params)) [] opener
      (⟨ids.next, .cond cond, (nodesOf b.ids body).1⟩ :: (branchesOf ids.rest elseIfs).1).reverse
      .default .ifThen b.nodes b.frames
  | switchHead expr opener => .inHead b.ids b.params [] opener expr b.nodes b.frames
  | caseBody expr opener blanks cases e _ =>
    .inBranch (branchesOf (idsAfterBlanks b.ids blanks) cases).2
      ((declaredInClauses cases).reverse ++ ((blanks.flatMap Blank.declared).reverse ++ b.params)) []
      opener (branchesOf (idsAfterBlanks b.ids blanks) cases).1.reverse (.cond e) (.switch expr)
      b.nodes b.frames
  | defaultBody expr opener blanks cases _ =>
    .inBranch (branchesOf (idsAfterBlanks b.ids blanks) cases).2
      ((declaredInClauses cases).reverse ++ ((blanks.flatMap Blank.declared).reverse ++ b.params)) []
      opener (branchesOf (idsAfterBlanks b.ids blanks) cases).1.reverse .default (.switch expr)
      b.nodes b.frames
  | forBody var expr opener =>
    .inBranch b.ids b.params [] opener [] .loopBody (.forEach var expr) b.nodes b.frames
  | emptyBody var expr opener body _ =>
    .inBranch (nodesOf b.ids body).2.rest ((declaredIn body).reverse ++ b.params) [] opener
      [⟨(nodesOf b.ids body).2.next, .loopBody, (nodesOf b.ids body).1⟩] .default
      (.forEach var expr) b.nodes b.frames

end Opened

/-- Where a construct is open, a frame is. -/
theorem Opened.enter_frames (o : Opened) (b : Body) :
    ∃ frame, (o.enter b).frames = (frame, b.nodes) :: b.frames := by
  cases o <;> exact ⟨_, rfl⟩

/-! ## 3. One command -/

section

variable {command : Command} {location : Span} {b b' : Body}

/-- **A command that ends the current body closes the construct or leads on to its next part.** -/
theorem Opened.endPart (o : Opened) (current : List Item)
    (h : ((o.enter b).after current).endPart command location = .ok b') :
    (∃ item : Item, b' = b.after [item]
        ∧ item.tokens = o.tokens ++ (tokensOf current ++ [.command command location]))
      ∨ ∃ o' : Opened, b' = o'.enter b
        ∧ o'.tokens = o.tokens ++ (tokensOf current ++ [.command command location]) := by
  cases o with
  | bindBody var kind opener =>
    obtain ⟨rfl, h⟩ := of_expectClose_ok h
    cases h
    refine .inl ⟨.bindBody var kind opener current location, ?_, ?_⟩
    · simp [Body.after, enter, Body.enter, Body.add, nodesOf, Item.nodes, declaredIn, Item.declared]
    · simp [Item.tokens, tokens]
  | call callee opener args =>
    obtain ⟨hblank, h⟩ := Body.of_endPart_inCall h
    obtain ⟨blanks, rfl⟩ := exists_blanks fun n hn =>
      hblank n (List.mem_append_left _ (List.mem_reverse.mpr hn))
    obtain ⟨name, expr, kind, rfl, rfl⟩ | ⟨name, kind, rfl, rfl⟩ | ⟨rfl, rfl⟩ := h
    · refine .inr ⟨.call callee opener (args ++ [.expr blanks name expr kind location]), ?_, ?_⟩
      · simp [enter, Body.inCall, paramsOf_append, paramsOf, Arg.param, nodesOf_blanks,
          declaredInArgs_append, declaredInArgs, Arg.declared]
      · simp [tokens, tokensOfArgs_append, tokensOfArgs, Arg.tokens]
    · refine .inr ⟨.argBody callee opener args blanks name kind location, ?_, ?_⟩
      · simp [enter, Body.inCall, nodesOf_blanks]
      · simp [tokens]
    · refine .inl ⟨.callWith callee opener args blanks location, ?_, ?_⟩
      · simp [Body.after, enter, Body.inCall, nodesOf, Item.nodes, nodesOf_blanks, declaredIn,
          Item.declared]
      · simp [Item.tokens, tokens]
  | argBody callee opener args blanks name kind argOpener =>
    obtain ⟨rfl, h⟩ := of_expectClose_ok h
    cases h
    refine .inr ⟨.call callee opener
      (args ++ [.content blanks name kind argOpener current location]), ?_, ?_⟩
    · simp [enter, Body.after, Body.inCall, Body.enter, paramsOf_append, paramsOf, Arg.param,
        declaredInArgs_append, declaredInArgs, Arg.declared]
    · simp [tokens, tokensOfArgs_append, tokensOfArgs, Arg.tokens]
  | ifBody cond opener =>
    rw [enter, Body.after_inBranch] at h
    obtain ⟨expr, rfl, -, -, rfl⟩ | ⟨rfl, -, rfl⟩ | ⟨rfl, rfl⟩ :=
      Body.of_endPart_inBranch (by trivial) h
    · refine .inr ⟨.elseIfBody cond opener current [] expr location, ?_, ?_⟩
      · simp [enter, branchesOf, declaredInClauses]
      · simp [tokens, tokensOfClauses, FlowHead.clauseCommand]
    · refine .inr ⟨.elseBody cond opener current [] location, ?_, ?_⟩
      · simp [enter, branchesOf, declaredInClauses]
      · simp [tokens, tokensOfClauses, FlowHead.lastCommand]
    · refine .inl ⟨.ifThen cond opener current [] none location, ?_, ?_⟩
      · simp [Body.after, nodesOf, Item.nodes, branchesOf, lastBranchOf, declaredIn, Item.declared,
          declaredInClauses, declaredInFallback]
      · simp [Item.tokens, tokens, tokensOfClauses, tokensOfFallback, FlowHead.command]
  | elseIfBody cond opener body elseIfs expr clauseOpener =>
    rw [enter, Body.after_inBranch] at h
    obtain ⟨e, rfl, -, -, rfl⟩ | ⟨rfl, -, rfl⟩ | ⟨rfl, rfl⟩ :=
      Body.of_endPart_inBranch (by trivial) h
    · refine .inr ⟨.elseIfBody cond opener body (elseIfs ++ [⟨expr, clauseOpener, current⟩]) e
        location, ?_, ?_⟩
      · simp [enter, branchesOf_append, branchesOf, Clause.branch, declaredInClauses_append,
          declaredInClauses, Clause.declared]
      · simp [tokens, tokensOfClauses_append, tokensOfClauses, Clause.tokens,
          FlowHead.clauseCommand]
    · refine .inr ⟨.elseBody cond opener body (elseIfs ++ [⟨expr, clauseOpener, current⟩])
        location, ?_, ?_⟩
      · simp [enter, branchesOf_append, branchesOf, Clause.branch, declaredInClauses_append,
          declaredInClauses, Clause.declared]
      · simp [tokens, tokensOfClauses_append, tokensOfClauses, Clause.tokens, FlowHead.lastCommand]
    · refine .inl ⟨.ifThen cond opener body (elseIfs ++ [⟨expr, clauseOpener, current⟩]) none
        location, ?_, ?_⟩
      · simp [Body.after, nodesOf, Item.nodes, branchesOf_append, branchesOf, Clause.branch,
          lastBranchOf, declaredIn, Item.declared, declaredInClauses_append, declaredInClauses,
          Clause.declared, declaredInFallback]
      · simp [Item.tokens, tokens, tokensOfClauses_append, tokensOfClauses, Clause.tokens,
          tokensOfFallback, FlowHead.command]
  | elseBody cond opener body elseIfs lastOpener =>
    rw [enter, Body.after_inBranch] at h
    obtain ⟨e, -, -, hk, -⟩ | ⟨-, hk, -⟩ | ⟨rfl, rfl⟩ := Body.of_endPart_inBranch (by trivial) h
    · exact absurd rfl hk
    · exact absurd rfl hk
    · refine .inl ⟨.ifThen cond opener body elseIfs (some ⟨lastOpener, current⟩) location, ?_, ?_⟩
      · simp [Body.after, nodesOf, Item.nodes, lastBranchOf, Fallback.branch, declaredIn,
          Item.declared, declaredInFallback, Fallback.declared]
      · simp [Item.tokens, tokens, tokensOfFallback, Fallback.tokens, FlowHead.command]
  | switchHead expr opener =>
    obtain ⟨hblank, h⟩ := Body.of_endPart_inHead h
    obtain ⟨blanks, rfl⟩ := exists_blanks fun n hn =>
      hblank n (List.mem_append_left _ (List.mem_reverse.mpr hn))
    obtain ⟨e, rfl, rfl⟩ | ⟨rfl, rfl⟩ | ⟨rfl, rfl⟩ := h
    · refine .inr ⟨.caseBody expr opener blanks [] e location, ?_, ?_⟩
      · simp [enter, Body.inHead, nodesOf_blanks, branchesOf, declaredInClauses]
      · simp [tokens, tokensOfClauses]
    · refine .inr ⟨.defaultBody expr opener blanks [] location, ?_, ?_⟩
      · simp [enter, Body.inHead, nodesOf_blanks, branchesOf, declaredInClauses]
      · simp [tokens, tokensOfClauses]
    · refine .inl ⟨.switch expr opener blanks [] none location, ?_, ?_⟩
      · simp [Body.after, enter, Body.inHead, nodesOf, Item.nodes, nodesOf_blanks, branchesOf,
          lastBranchOf, declaredIn, Item.declared, declaredInClauses, declaredInFallback]
      · simp [Item.tokens, tokens, tokensOfClauses, tokensOfFallback]
  | caseBody expr opener blanks cases e clauseOpener =>
    rw [enter, Body.after_inBranch] at h
    obtain ⟨e', rfl, -, -, rfl⟩ | ⟨rfl, -, rfl⟩ | ⟨rfl, rfl⟩ :=
      Body.of_endPart_inBranch (by trivial) h
    · refine .inr ⟨.caseBody expr opener blanks (cases ++ [⟨e, clauseOpener, current⟩]) e'
        location, ?_, ?_⟩
      · simp [enter, branchesOf_append, branchesOf, Clause.branch, declaredInClauses_append,
          declaredInClauses, Clause.declared]
      · simp [tokens, tokensOfClauses_append, tokensOfClauses, Clause.tokens,
          FlowHead.clauseCommand]
    · refine .inr ⟨.defaultBody expr opener blanks (cases ++ [⟨e, clauseOpener, current⟩])
        location, ?_, ?_⟩
      · simp [enter, branchesOf_append, branchesOf, Clause.branch, declaredInClauses_append,
          declaredInClauses, Clause.declared]
      · simp [tokens, tokensOfClauses_append, tokensOfClauses, Clause.tokens, FlowHead.lastCommand]
    · refine .inl ⟨.switch expr opener blanks (cases ++ [⟨e, clauseOpener, current⟩]) none
        location, ?_, ?_⟩
      · simp [Body.after, nodesOf, Item.nodes, branchesOf_append, branchesOf, Clause.branch,
          lastBranchOf, declaredIn, Item.declared, declaredInClauses_append, declaredInClauses,
          Clause.declared, declaredInFallback]
      · simp [Item.tokens, tokens, tokensOfClauses_append, tokensOfClauses, Clause.tokens,
          tokensOfFallback, FlowHead.command]
  | defaultBody expr opener blanks cases lastOpener =>
    rw [enter, Body.after_inBranch] at h
    obtain ⟨e, -, -, hk, -⟩ | ⟨-, hk, -⟩ | ⟨rfl, rfl⟩ := Body.of_endPart_inBranch (by trivial) h
    · exact absurd rfl hk
    · exact absurd rfl hk
    · refine .inl ⟨.switch expr opener blanks cases (some ⟨lastOpener, current⟩) location, ?_, ?_⟩
      · simp [Body.after, nodesOf, Item.nodes, lastBranchOf, Fallback.branch, declaredIn,
          Item.declared, declaredInFallback, Fallback.declared]
      · simp [Item.tokens, tokens, tokensOfFallback, Fallback.tokens, FlowHead.command]
  | forBody var expr opener =>
    rw [enter, Body.after_inBranch] at h
    obtain ⟨e, -, hloop, -, -⟩ | ⟨rfl, -, rfl⟩ | ⟨rfl, rfl⟩ :=
      Body.of_endPart_inBranch (by exact .inl ⟨rfl, rfl⟩) h
    · cases hloop
    · refine .inr ⟨.emptyBody var expr opener current location, ?_, ?_⟩
      · simp [enter]
      · simp [tokens, FlowHead.lastCommand]
    · refine .inl ⟨.forEach var expr opener current none location, ?_, ?_⟩
      · simp [Body.after, nodesOf, Item.nodes, lastBranchOf, declaredIn, Item.declared,
          declaredInFallback]
      · simp [Item.tokens, tokens, tokensOfFallback, FlowHead.command]
  | emptyBody var expr opener body lastOpener =>
    rw [enter, Body.after_inBranch] at h
    obtain ⟨e, -, hloop, -, -⟩ | ⟨-, hk, -⟩ | ⟨rfl, rfl⟩ := Body.of_endPart_inBranch (by exact .inr rfl) h
    · cases hloop
    · exact absurd rfl hk
    · refine .inl ⟨.forEach var expr opener body (some ⟨lastOpener, current⟩) location, ?_, ?_⟩
      · simp [Body.after, nodesOf, Item.nodes, lastBranchOf, Fallback.branch, declaredIn,
          Item.declared, declaredInFallback, Fallback.declared]
      · simp [Item.tokens, tokens, tokensOfFallback, Fallback.tokens, FlowHead.command]

end

/-! ## 4. Whole readings -/

namespace Body

/-- What has been read when the current body begins; the constructs that are open around it come
from the inside out, each with the items before it. -/
def inside (ids : IdSource) : List (Opened × List Item) → Body
  | [] => .empty ids
  | (o, before) :: open' => o.enter ((inside ids open').after before)

/-- The tokens of what has been derived around the current body. -/
def tokensAround : List (Opened × List Item) → List Token
  | [] => []
  | (o, before) :: open' => tokensAround open' ++ (tokensOf before ++ o.tokens)

/-- **A token that is taken leads on to an unfinished derivation of the tokens so far.** -/
theorem derived_step {ids : IdSource} {around : List (Opened × List Item)} {items : List Item}
    {token : Token} {b' : Body} (h : ((inside ids around).after items).step token = .ok b') :
    ∃ around' items', b' = (inside ids around').after items'
      ∧ tokensAround around' ++ tokensOf items'
        = tokensAround around ++ tokensOf items ++ [token] := by
  -- the token is an item of the current body
  have item (i : Item) (hb : ((inside ids around).after items).after [i] = b')
      (ht : i.tokens = [token]) : ∃ around' items', b' = (inside ids around').after items'
        ∧ tokensAround around' ++ tokensOf items'
          = tokensAround around ++ tokensOf items ++ [token] :=
    ⟨around, items ++ [i], by rw [after_append, hb], by simp [tokensOf, ht]⟩
  -- the token opens a construct in the current body
  have opened (o : Opened) (hb : o.enter ((inside ids around).after items) = b')
      (ht : o.tokens = [token]) : ∃ around' items', b' = (inside ids around').after items'
        ∧ tokensAround around' ++ tokensOf items'
          = tokensAround around ++ tokensOf items ++ [token] :=
    ⟨(o, items) :: around, [], by rw [after_nil, inside, hb], by simp [tokensAround, tokensOf, ht]⟩
  cases token with
  | text t location =>
    cases h
    exact item (.text t location) rfl (by rw [Item.tokens])
  | command command location =>
    simp only [step] at h
    split at h
    case h_12 =>
      cases around with
      | nil => cases h
      | cons top around =>
        obtain ⟨o, before⟩ := top
        obtain ⟨i, rfl, ht⟩ | ⟨o', rfl, ht⟩ := o.endPart items h
        · refine ⟨around, before ++ [i], (after_append ..).symm, ?_⟩
          simp [tokensAround, tokensOf, ht]
        · refine ⟨(o', before) :: around, [], (after_nil _).symm, ?_⟩
          simp [tokensAround, tokensOf, ht]
    all_goals cases h
    · exact item (.special [] location) rfl (by rw [Item.tokens])
    · next t ht =>
      refine item (.special t location) ?_ (by rw [Item.tokens])
      cases t with
      | nil => exact absurd rfl ht
      | cons c cs => rfl
    · next expr => exact item (.print expr location) rfl (by rw [Item.tokens])
    · next callee => exact item (.call callee location) rfl (by rw [Item.tokens])
    · next callee => exact opened (.call callee location []) rfl rfl
    · next var expr kind => exact item (.bind var expr kind location) rfl (by rw [Item.tokens])
    · next var kind => exact opened (.bindBody var kind location) rfl rfl
    · next cond => exact opened (.ifBody cond location) rfl rfl
    · next expr => exact opened (.switchHead expr location) rfl rfl
    · next var expr => exact opened (.forBody var expr location) rfl rfl
    · next name type => exact item (.declare name type location) rfl (by rw [Item.tokens])

/-- **What is read is an unfinished derivation of the tokens.** -/
theorem derived_of_readScan : ∀ (tokens : List Token) {error : Option SyntaxError}
    {ids : IdSource} {around : List (Opened × List Item)} {items : List Item} {b' : Body},
    ((inside ids around).after items).readScan tokens error = .ok b' →
    error = none ∧ ∃ around' items', b' = (inside ids around').after items'
      ∧ tokensAround around' ++ tokensOf items' = tokensAround around ++ tokensOf items ++ tokens
  | [], none, _, around, items, _, h => by
    cases h
    exact ⟨rfl, around, items, rfl, by rw [List.append_nil]⟩
  | [], some _, _, _, _, _, h => by cases h
  | token :: tokens, error, ids, around, items, b', h => by
    rw [readScan] at h
    cases hs : ((inside ids around).after items).step token with
    | error r => rw [hs] at h; cases h
    | ok b₁ =>
      rw [hs] at h
      obtain ⟨around₁, items₁, rfl, ht₁⟩ := derived_step hs
      obtain ⟨herror, around', items', rfl, ht'⟩ := derived_of_readScan tokens h
      exact ⟨herror, around', items', rfl, by rw [ht', ht₁, List.append_assoc]; rfl⟩

/-- Without open constructs a derivation is finished. -/
theorem around_eq_nil {ids : IdSource} {around : List (Opened × List Item)} {items : List Item}
    (h : ((inside ids around).after items).frames = []) : around = [] := by
  cases around with
  | nil => rfl
  | cons top around =>
    obtain ⟨frame, hf⟩ := top.1.enter_frames ((inside ids around).after top.2)
    rw [after_frames, inside, hf] at h
    cases h

end Body

/-! ## 5. The order of branches -/

theorem flowsInOrder_nil : FlowsInOrder [] := nofun

theorem FlowsInOrder.append {l l' : List Node} (h : FlowsInOrder l) (h' : FlowsInOrder l') :
    FlowsInOrder (l ++ l') := by
  intro f hf
  rcases List.mem_append.mp hf with hf | hf
  · exact h f hf
  · exact h' f hf

theorem FlowsInOrder.cons {n : Node} {l : List Node} (hn : ∀ f, n = .flow f → f.InOrder)
    (h : FlowsInOrder l) : FlowsInOrder (n :: l) := by
  intro f hf
  rcases List.mem_cons.mp hf with hf | hf
  · exact hn f hf.symm
  · exact h f hf

theorem walk_append (l l' : List Node) : walk (l ++ l') = walk l ++ walk l' := by
  induction l with
  | nil => simp [walk]
  | cons n l ih => simp [walk, ih]

theorem walkBranches_append (l l' : List Branch) :
    walkBranches (l ++ l') = walkBranches l ++ walkBranches l' := by
  induction l with
  | nil => simp [walkBranches]
  | cons b l ih => simp [walkBranches, ih]

/-- The kinds of branches with conditions. -/
theorem kinds_branchesOf (ids : IdSource) (clauses : List Clause) :
    (branchesOf ids clauses).1.map Branch.kind = (clauses.map Clause.expr).map .cond := by
  induction clauses generalizing ids with
  | nil => simp [branchesOf]
  | cons clause clauses ih =>
    obtain ⟨expr, o, body⟩ := clause
    simp [branchesOf, Clause.branch, ih]

/-- The last branch is taken when no other is. -/
theorem kinds_lastBranchOf (ids : IdSource) (otherwise : Option Fallback) :
    (lastBranchOf ids otherwise).1.map Branch.kind = []
      ∨ (lastBranchOf ids otherwise).1.map Branch.kind = [.default] := by
  cases otherwise with
  | none => exact .inl (by simp [lastBranchOf])
  | some fallback =>
    obtain ⟨o, body⟩ := fallback
    exact .inr (by simp [lastBranchOf, Fallback.branch])

mutual

/-- The branches in an item are in order. -/
theorem Item.flowsInOrder : ∀ (item : Item) (ids : IdSource), FlowsInOrder (walk (item.nodes ids).1)
  | .text t location, ids | .print expr location, ids | .call callee location, ids
  | .bind var expr kind location, ids => by
    simp only [Item.nodes, walk, Node.walk, walkParams, Value.walk]
    exact .cons nofun flowsInOrder_nil
  | .special t location, ids => by
    rw [Item.nodes]
    split
    · exact flowsInOrder_nil
    · simp only [walk, Node.walk]
      exact .cons nofun flowsInOrder_nil
  | .declare name type location, ids => by
    rw [Item.nodes]
    exact flowsInOrder_nil
  | .callWith callee opener args blanks closer, ids => by
    simp only [Item.nodes, walk, Node.walk, List.append_nil]
    exact .cons nofun (flowsInOrder_paramsOf args ids)
  | .bindBody var kind opener body closer, ids => by
    simp only [Item.nodes, walk, Node.walk, Value.walk, List.append_nil]
    exact .cons nofun (flowsInOrder_nodesOf body ids)
  | .ifThen cond opener body elseIfs otherwise closer, ids => by
    simp only [Item.nodes, walk, Node.walk, Flow.walk, List.append_nil, List.cons_append,
      walkBranches, walkBranches_append, Branch.walk]
    refine .cons ?_ ((flowsInOrder_nodesOf body ids).append
      ((flowsInOrder_branchesOf elseIfs _).append (flowsInOrder_lastBranchOf otherwise _)))
    rintro f ⟨⟩
    refine ⟨_, _, ?_, kinds_lastBranchOf (branchesOf (nodesOf ids body).2.rest elseIfs).2 otherwise,
      cond, elseIfs.map Clause.expr, rfl⟩
    simp [kinds_branchesOf]
  | .switch expr opener blanks cases otherwise closer, ids => by
    simp only [Item.nodes, walk, Node.walk, Flow.walk, List.append_nil, walkBranches_append]
    refine .cons ?_
      ((flowsInOrder_branchesOf cases _).append (flowsInOrder_lastBranchOf otherwise _))
    rintro f ⟨⟩
    refine ⟨_, _, ?_, kinds_lastBranchOf (branchesOf (idsAfterBlanks ids blanks) cases).2 otherwise,
      cases.map Clause.expr, rfl⟩
    simp [kinds_branchesOf]
  | .forEach var expr opener body ifEmpty closer, ids => by
    simp only [Item.nodes, walk, Node.walk, Flow.walk, List.append_nil, walkBranches, Branch.walk]
    refine .cons ?_ ((flowsInOrder_nodesOf body ids).append (flowsInOrder_lastBranchOf ifEmpty _))
    rintro f ⟨⟩
    exact ⟨[.loopBody], _, by simp, kinds_lastBranchOf (nodesOf ids body).2.rest ifEmpty, rfl⟩

/-- So are those in a body. -/
theorem flowsInOrder_nodesOf : ∀ (items : List Item) (ids : IdSource),
    FlowsInOrder (walk (nodesOf ids items).1)
  | [], ids => by
    rw [nodesOf]
    exact flowsInOrder_nil
  | item :: items, ids => by
    simp only [nodesOf, walk_append]
    exact (item.flowsInOrder ids).append (flowsInOrder_nodesOf items _)

theorem flowsInOrder_paramsOf : ∀ (args : List Arg) (ids : IdSource),
    FlowsInOrder (walkParams (paramsOf ids args).1)
  | [], ids => by
    simp only [paramsOf, walkParams]
    exact flowsInOrder_nil
  | .expr blanks name expr kind location :: args, ids => by
    simp only [paramsOf, Arg.param, walkParams, Param.walk, Value.walk, List.nil_append]
    exact flowsInOrder_paramsOf args _
  | .content blanks name kind opener body closer :: args, ids => by
    simp only [paramsOf, Arg.param, walkParams, Param.walk, Value.walk]
    exact (flowsInOrder_nodesOf body _).append (flowsInOrder_paramsOf args _)

theorem flowsInOrder_branchesOf : ∀ (clauses : List Clause) (ids : IdSource),
    FlowsInOrder (walkBranches (branchesOf ids clauses).1)
  | [], ids => by
    simp only [branchesOf, walkBranches]
    exact flowsInOrder_nil
  | ⟨expr, opener, body⟩ :: clauses, ids => by
    simp only [branchesOf, Clause.branch, walkBranches, Branch.walk]
    exact (flowsInOrder_nodesOf body ids).append (flowsInOrder_branchesOf clauses _)

theorem flowsInOrder_lastBranchOf : ∀ (otherwise : Option Fallback) (ids : IdSource),
    FlowsInOrder (walkBranches (lastBranchOf ids otherwise).1)
  | none, ids => by
    simp only [lastBranchOf, walkBranches]
    exact flowsInOrder_nil
  | some ⟨opener, body⟩, ids => by
    simp only [lastBranchOf, Fallback.branch, walkBranches, Branch.walk, List.append_nil]
    exact flowsInOrder_nodesOf body ids

end

/-! ## 6. Templates -/

theorem zero_le_size (src : Text) : 0 ≤ src.size := Nat.zero_le _

/-- The template of a body that is derived. -/
def templateOf (src : Text) (kind : ContentKind) (ids : IdSource) (items : List Item) : Template where
  id := (nodesOf ids items).2.next
  location := ⟨0, src.size, zero_le_size src⟩
  name := ".test".toList
  kind := kind
  params := declaredIn items
  nodes := (nodesOf ids items).1

/-- A template is read if and only if the grammar derives it. -/
theorem Template.read_eq_ok {src : Text} {kind : ContentKind} {ids ids' : IdSource} {t : Template} :
    Template.read src kind ids = .ok (t, ids')
      ↔ ∃ items, CutsInto 0 src (tokensOf items) ∧ t = templateOf src kind ids items
        ∧ ids' = (nodesOf ids items).2.rest := by
  constructor
  · intro h
    unfold Template.read at h
    dsimp only at h
    cases hscan : (Body.empty ids).readScan (Token.scan 0 src).1 (Token.scan 0 src).2 with
    | error r =>
      rw [hscan] at h
      cases h
    | ok body =>
      obtain ⟨herror, around, items, rfl, htokens⟩ :=
        @Body.derived_of_readScan (Token.scan 0 src).1 _ ids [] [] _
          (by rw [Body.after_nil]; exact hscan)
      rw [hscan] at h
      cases hf : ((Body.inside ids around).after items).frames with
      | cons frame frames =>
        simp only [bind, Except.bind, Body.finish, hf] at h
        cases h
      | nil =>
        simp only [bind, Except.bind, Body.finish, hf] at h
        obtain rfl := Body.around_eq_nil hf
        cases h
        refine ⟨items, Token.scan_eq_iff.mp (Prod.ext ?_ herror), ?_, rfl⟩
        · simpa [Body.tokensAround, tokensOf] using htokens.symm
        · simp [templateOf, Body.after, Body.inside, Body.empty]
  · rintro ⟨items, hcut, rfl, rfl⟩
    have hread := Body.readScan_tokensOf items (Body.empty ids) [] none
    rw [List.append_nil] at hread
    unfold Template.read
    rw [Token.scan_eq_iff.mpr hcut]
    dsimp only
    rw [hread]
    simp [Body.readScan, Body.finish, Body.after, Body.empty, templateOf, bind, Except.bind, pure,
      Except.pure]

/-- **A source is accepted if and only if it can be cut into tokens that the grammar derives, and
the template is then the tree of the derivation, its branches in the order of the grammar.** -/
theorem Template.read_iff_derived (src : Text) (kind : ContentKind) (ids : IdSource) :
    (∀ t ids', Template.read src kind ids = .ok (t, ids')
      ↔ ∃ items, CutsInto 0 src (tokensOf items) ∧ t = templateOf src kind ids items
        ∧ ids' = (nodesOf ids items).2.rest)
    ∧ ∀ t ids', Template.read src kind ids = .ok (t, ids') → FlowsInOrder (walk t.nodes) := by
  refine ⟨fun t ids' => Template.read_eq_ok, fun t ids' h => ?_⟩
  obtain ⟨items, -, rfl, -⟩ := Template.read_eq_ok.mp h
  exact flowsInOrder_nodesOf items ids

end TemplateMarkup
