/-
# Bodies are read by the grammar

A source is accepted if and only if it can be cut into tokens and the grammar derives them; the
template is then the tree of the derivation (`Template.read_iff_derived`).

What has been read of a derived body is `Body.after`.  That a derivation is read is an induction on
it (`Body.readScan_tokensOf`).  The other direction keeps a derivation that is not finished: for
every open construct what has been derived of it (`Opened`), with the items around it.  One command
either closes the innermost construct or leads on to its next part (`Opened.endPart`), so every
state of a reading is the state after some unfinished derivation of the tokens read (`Body.derived`).
-/
import TemplateMarkup.Proofs.Template.Cuts
import TemplateMarkup.Proofs.Template.Grammar
import TemplateMarkup.Template.Read

namespace TemplateMarkup

/-! ## 1. Bodies that have been derived -/

@[simp] theorem tokensOf_append (items items' : List Item) :
    tokensOf (items ++ items') = tokensOf items ++ tokensOf items' := by
  induction items with
  | nil => simp [tokensOf]
  | cons item items ih => simp [tokensOf, ih]

theorem nodesOf_append (ids : IdSource) (items items' : List Item) :
    nodesOf ids (items ++ items')
      = ((nodesOf ids items).1 ++ (nodesOf (nodesOf ids items).2 items').1,
          (nodesOf (nodesOf ids items).2 items').2) := by
  induction items generalizing ids with
  | nil => simp [nodesOf]
  | cons item items ih => simp [nodesOf, ih]

@[simp] theorem declaredIn_append (items items' : List Item) :
    declaredIn (items ++ items') = declaredIn items ++ declaredIn items' := by
  induction items with
  | nil => simp [declaredIn]
  | cons item items ih => simp [declaredIn, ih]

namespace Body

/-- The body after the items. -/
def after (b : Body) (items : List Item) : Body where
  ids := (nodesOf b.ids items).2
  params := (declaredIn items).reverse ++ b.params
  nodes := (nodesOf b.ids items).1.reverse ++ b.nodes
  frames := b.frames

@[simp] theorem after_nil (b : Body) : b.after [] = b := by
  simp [after, nodesOf, declaredIn]

theorem after_append (b : Body) (items items' : List Item) :
    b.after (items ++ items') = (b.after items).after items' := by
  simp [after, nodesOf_append]

@[simp] theorem after_frames (b : Body) (items : List Item) : (b.after items).frames = b.frames := rfl

/-- A token that is taken is behind the scan. -/
theorem readScan_step {b b' : Body} {token : Token} (h : b.step token = .ok b')
    (tokens : List Token) (error : Option SyntaxError) :
    b.readScan (token :: tokens) error = b'.readScan tokens error := by
  rw [readScan, h]
  rfl

end Body

/-! ## 2. What separates parts -/

/-- As an item of the body it stands in. -/
def Blank.item : Blank → Item
  | .text t location _ => .text t location
  | .special t location _ => .special t location
  | .declare name type location => .declare name type location

@[simp] theorem tokensOf_blanks (blanks : List Blank) :
    tokensOf (blanks.map Blank.item) = blanks.map Blank.token := by
  induction blanks with
  | nil => rfl
  | cons blank blanks ih => cases blank <;> simp [tokensOf, Item.tokens, Blank.item, Blank.token, ih]

@[simp] theorem declaredIn_blanks (blanks : List Blank) :
    declaredIn (blanks.map Blank.item) = blanks.flatMap Blank.declared := by
  induction blanks with
  | nil => rfl
  | cons blank blanks ih =>
    cases blank <;> simp [declaredIn, Item.declared, Blank.item, Blank.declared, ih]

/-- Nodes of blanks alone. -/
def AllBlank (nodes : List Node) : Prop := ∀ n ∈ nodes, n.rawText?.any Text.allBlank = true

/-- It takes its numbers, and only blanks are left of it. -/
theorem nodesOf_blanks (ids : IdSource) (blanks : List Blank) :
    (nodesOf ids (blanks.map Blank.item)).2 = idsAfterBlanks ids blanks
      ∧ AllBlank (nodesOf ids (blanks.map Blank.item)).1 := by
  induction blanks generalizing ids with
  | nil => exact ⟨rfl, nofun⟩
  | cons blank blanks ih =>
    cases blank with
    | text t location h =>
      obtain ⟨hids, hblank⟩ := ih ids.rest
      simp only [List.map_cons, Blank.item, nodesOf, Item.nodes]
      exact ⟨hids, List.forall_mem_cons.mpr ⟨h, hblank⟩⟩
    | special t location h =>
      simp only [List.map_cons, Blank.item, nodesOf, Item.nodes]
      by_cases ht : t = []
      · simp only [if_pos ht]
        obtain ⟨hids, hblank⟩ := ih ids
        exact ⟨by rw [hids, idsAfterBlanks, idsAfterBlanks, List.foldl_cons, Blank.idsAfter,
          if_pos ht], hblank⟩
      · simp only [if_neg ht]
        obtain ⟨hids, hblank⟩ := ih ids.rest
        exact ⟨by rw [hids, idsAfterBlanks, idsAfterBlanks, List.foldl_cons, Blank.idsAfter,
          if_neg ht], List.forall_mem_cons.mpr ⟨h, hblank⟩⟩
    | declare name type location =>
      obtain ⟨hids, hblank⟩ := ih ids
      simp only [List.map_cons, Blank.item, nodesOf, Item.nodes]
      exact ⟨hids, hblank⟩

/-- Only blanks may stand where a construct has no content. -/
theorem expectBlank_eq_ok {ids : IdSource} {name : String} {nodes : List Node} :
    expectBlank ids name nodes = .ok () ↔ AllBlank nodes := by
  unfold expectBlank strayContent? strayNode? AllBlank
  cases hf : nodes.reverse.find? fun n => !(n.rawText?.any Text.allBlank) with
  | none =>
    simpa [List.find?_eq_none] using hf
  | some n =>
    have hn := List.find?_some hf
    have hm := List.mem_reverse.mp (List.mem_of_find?_eq_some hf)
    simp only [Option.map_some, reduceCtorEq, false_iff]
    intro h
    rw [h n hm] at hn
    cases hn

/-- An item of which only blanks are left separates parts. -/
theorem exists_blank {ids : IdSource} {item : Item} (h : AllBlank (item.nodes ids).1) :
    ∃ blank : Blank, item = blank.item := by
  cases item with
  | text t location =>
    rw [Item.nodes] at h
    exact ⟨.text t location (h _ List.mem_cons_self), rfl⟩
  | special t location =>
    by_cases ht : t = []
    · exact ⟨.special t location (by rw [ht]; rfl), rfl⟩
    · rw [Item.nodes, if_neg ht] at h
      exact ⟨.special t location (h _ List.mem_cons_self), rfl⟩
  | declare name type location => exact ⟨.declare name type location, rfl⟩
  | _ =>
    rw [Item.nodes] at h
    cases h _ List.mem_cons_self

/-- So do items. -/
theorem exists_blanks {ids : IdSource} {items : List Item} (h : AllBlank (nodesOf ids items).1) :
    ∃ blanks : List Blank, items = blanks.map Blank.item := by
  induction items generalizing ids with
  | nil => exact ⟨[], rfl⟩
  | cons item items ih =>
    rw [nodesOf] at h
    obtain ⟨blank, rfl⟩ := exists_blank fun n hn => h n (List.mem_append_left _ hn)
    obtain ⟨blanks, rfl⟩ := ih fun n hn => h n (List.mem_append_right _ hn)
    exact ⟨blank :: blanks, rfl⟩

namespace Body

/-- A token that separates parts is taken. -/
theorem step_blank (b : Body) (blank : Blank) :
    b.step blank.token = .ok (b.after [blank.item]) := by
  cases blank with
  | special t location h => cases t <;> rfl
  | _ => rfl

/-- Where there is no content, only blanks have been read after what separates parts. -/
theorem readScan_blanks (b : Body) (hb : b.nodes = []) (blanks : List Blank) :
    ∃ nodes, AllBlank nodes ∧ ∀ rest error, b.readScan (blanks.map Blank.token ++ rest) error
      = readScan ⟨idsAfterBlanks b.ids blanks, (blanks.flatMap Blank.declared).reverse ++ b.params,
          nodes, b.frames⟩ rest error := by
  have hread (b : Body) (rest : List Token) (error : Option SyntaxError) :
      b.readScan (blanks.map Blank.token ++ rest) error
        = (b.after (blanks.map Blank.item)).readScan rest error := by
    induction blanks generalizing b with
    | nil => rw [List.map_nil, List.map_nil, List.nil_append, after_nil]
    | cons blank blanks ih =>
      rw [List.map_cons, List.map_cons, List.cons_append, readScan_step (step_blank b blank), ih,
        ← after_append]
      rfl
  obtain ⟨hids, hblank⟩ := nodesOf_blanks b.ids blanks
  refine ⟨(nodesOf b.ids (blanks.map Blank.item)).1.reverse,
    fun n hn => hblank n (List.mem_reverse.mp hn), fun rest error => (hread b rest error).trans ?_⟩
  rw [after, hids, declaredIn_blanks, hb, List.append_nil]

end Body

/-! ## 3. The end of a part -/

/-- The command before a branch that has a condition. -/
def FlowHead.clauseCommand : FlowHead → Text → Command
  | switch _ => .caseOf
  | _ => .elseIf

/-- The command before a branch that is taken when no other is. -/
def FlowHead.lastCommand : FlowHead → Command
  | ifThen => .otherwise
  | switch _ => .default
  | forEach _ _ => .ifEmpty

/-- The construct that is open in a branch; `done` are the branches before it. -/
def branchFrame (opener : Span) (done : List Branch) (kind : BranchKind) : FlowHead → Frame
  | .ifThen => .ifBranch opener done kind
  | .switch expr => .switchBranch opener expr done kind
  | .forEach var expr =>
    if kind = .loopBody then .forBody opener var expr else .forEmpty opener var expr done

/-- A loop body is the first branch, and no other construct has one. -/
def MayFollow (done : List Branch) (kind : BranchKind) : FlowHead → Prop
  | .forEach _ _ => kind = .loopBody ∧ done = [] ∨ kind = .default
  | _ => True

/-- A construct is closed by its own command, -/
theorem expectClose_self (ids : IdSource) (name : String) (location : Span) :
    expectClose ids name (.close name.toList) location = .ok () := if_pos rfl

/-- and read on behind it. -/
theorem expectClose_bind (ids : IdSource) (name : String) (location : Span)
    (k : Unit → Except Rejection Body) :
    (expectClose ids name (.close name.toList) location >>= k) = k () := by
  rw [expectClose_self]
  rfl

/-- Where only blanks have been read, the construct is read on. -/
theorem expectBlank_bind {inner : List Node} (h : AllBlank inner) (ids : IdSource) (name : String)
    (k : Unit → Except Rejection Body) : (expectBlank ids name inner >>= k) = k () := by
  rw [expectBlank_eq_ok.mpr h]
  rfl

namespace Body

/-- Control flow inside a branch; `done` are the branches before it and `inner` the nodes of it. -/
def inBranch (ids : IdSource) (params : List ParamDecl) (inner : List Node) (opener : Span)
    (done : List Branch) (kind : BranchKind) (head : FlowHead) (outer : List Node)
    (frames : List (Frame × List Node)) : Body :=
  ⟨ids, params, inner, (branchFrame opener done kind head, outer) :: frames⟩

/-- A call between its parameters; `done` are the parameters so far. -/
def inCall (ids : IdSource) (params : List ParamDecl) (inner : List Node) (opener : Span)
    (callee : Text) (done : List Param) (outer : List Node) (frames : List (Frame × List Node)) :
    Body :=
  ⟨ids, params, inner, (.call opener callee done, outer) :: frames⟩

section

variable {ids : IdSource} {params : List ParamDecl} {inner outer : List Node}
  {opener location : Span} {done : List Branch} {kind : BranchKind} {head : FlowHead}
  {frames : List (Frame × List Node)}

/-- The items of a branch. -/
theorem after_inBranch (items : List Item) :
    (inBranch ids params inner opener done kind head outer frames).after items
      = inBranch (nodesOf ids items).2 ((declaredIn items).reverse ++ params)
          ((nodesOf ids items).1.reverse ++ inner) opener done kind head outer frames := rfl

/-- A branch with a condition may follow any but the last branch. -/
theorem step_clause (hloop : head.isLoop = false) (hkind : kind ≠ .default) (expr : Text) :
    (inBranch ids params inner opener done kind head outer frames).step
        (.command (head.clauseCommand expr) location)
      = .ok (inBranch ids.rest params [] opener (⟨ids.next, kind, inner.reverse⟩ :: done)
          (.cond expr) head outer frames) := by
  cases head with
  | forEach var expr => cases hloop
  | ifThen | switch e => exact if_neg hkind

/-- So may the last branch. -/
theorem step_last (hfollow : MayFollow done kind head) (hkind : kind ≠ .default) :
    (inBranch ids params inner opener done kind head outer frames).step
        (.command head.lastCommand location)
      = .ok (inBranch ids.rest params [] opener (⟨ids.next, kind, inner.reverse⟩ :: done)
          .default head outer frames) := by
  cases head with
  | forEach var expr =>
    obtain ⟨rfl, rfl⟩ := hfollow.resolve_right hkind
    rfl
  | ifThen | switch e => exact if_neg hkind

/-- Control flow is closed after any branch. -/
theorem step_closeFlow (hfollow : MayFollow done kind head) :
    (inBranch ids params inner opener done kind head outer frames).step
        (.command (.close head.command.toList) location)
      = .ok ⟨ids.rest.rest, params, .flow ⟨ids.rest.next, opener.union location, head,
          done.reverse ++ [⟨ids.next, kind, inner.reverse⟩]⟩ :: outer, frames⟩ := by
  rw [← List.reverse_cons]
  cases head with
  | forEach var expr =>
    rcases hfollow with ⟨rfl, rfl⟩ | rfl <;> exact expectClose_bind ..
  | ifThen | switch e => exact expectClose_bind ..

/-- Before the first branch of a `{switch}`; `inner` are the nodes since its opening command. -/
def inHead (ids : IdSource) (params : List ParamDecl) (inner : List Node) (opener : Span)
    (expr : Text) (outer : List Node) (frames : List (Frame × List Node)) : Body :=
  ⟨ids, params, inner, (.switchHead opener expr, outer) :: frames⟩

/-- The first branch of a `{switch}` may follow blanks. -/
theorem step_firstCase (hinner : AllBlank inner) (expr e : Text) :
    (inHead ids params inner opener expr outer frames).step (.command (.caseOf e) location)
      = .ok (inBranch ids params [] opener [] (.cond e) (.switch expr) outer frames) :=
  expectBlank_bind hinner ..

/-- It may be the last one. -/
theorem step_onlyDefault (hinner : AllBlank inner) (expr : Text) :
    (inHead ids params inner opener expr outer frames).step (.command .default location)
      = .ok (inBranch ids params [] opener [] .default (.switch expr) outer frames) :=
  expectBlank_bind hinner ..

/-- A `{switch}` may have no branches. -/
theorem step_closeHead (hinner : AllBlank inner) (expr : Text) :
    (inHead ids params inner opener expr outer frames).step
        (.command (.close "switch".toList) location)
      = .ok ⟨ids.rest, params, .flow ⟨ids.next, opener.union location, .switch expr, []⟩ :: outer,
          frames⟩ :=
  (expectBlank_bind hinner ..).trans (expectClose_bind ..)

variable {callee : Text} {args : List Param}

/-- A parameter may follow blanks. -/
theorem step_param (hinner : AllBlank inner) (name expr : Text) (kind : Option ContentKind) :
    (inCall ids params inner opener callee args outer frames).step
        (.command (.param name (some expr) kind) location)
      = .ok (inCall ids.rest params [] opener callee (⟨ids.next, location, name, .expr expr⟩ :: args)
          outer frames) :=
  expectBlank_bind hinner ..

/-- So may a parameter with content. -/
theorem step_paramContent (hinner : AllBlank inner) (name : Text) (kind : Option ContentKind) :
    (inCall ids params inner opener callee args outer frames).step
        (.command (.param name none kind) location)
      = .ok ⟨ids, params, [],
          (.paramBody opener callee args location name kind, outer) :: frames⟩ :=
  expectBlank_bind hinner ..

/-- The content of a parameter is closed. -/
theorem step_closeParam {paramOpener : Span} {name : Text} {kind : Option ContentKind} :
    step ⟨ids, params, inner,
        (.paramBody opener callee args paramOpener name kind, outer) :: frames⟩
        (.command (.close "param".toList) location)
      = .ok (inCall ids.rest params [] opener callee
          (⟨ids.next, paramOpener.union location, name, .content kind inner.reverse⟩ :: args)
          outer frames) :=
  expectClose_bind ..

/-- A call is closed behind blanks. -/
theorem step_closeCall (hinner : AllBlank inner) :
    (inCall ids params inner opener callee args outer frames).step
        (.command (.close "call".toList) location)
      = .ok ⟨ids.rest, params, .call ids.next (opener.union location) callee args.reverse :: outer,
          frames⟩ :=
  (expectBlank_bind hinner ..).trans (expectClose_bind ..)

/-- The content of a binding is closed. -/
theorem step_closeBinding {var : Text} {kind : Option ContentKind} :
    step ⟨ids, params, inner, (.letBody opener var kind, outer) :: frames⟩
        (.command (.close "let".toList) location)
      = .ok ⟨ids.rest, params,
          .binding ids.next (opener.union location) var (.content kind inner.reverse) :: outer,
          frames⟩ :=
  expectClose_bind ..

end

/-! ## 4. What is derived is read -/

/-- A branch is open that more may follow.  With it, `branches` are the branches so far and `ids`
the numbers left. -/
inductive AtBranch (head : FlowHead) (opener : Span) (outer : List Node)
    (frames : List (Frame × List Node)) :
    Body → List Branch → IdSource → List ParamDecl → Prop
  | mk (ids : IdSource) (params : List ParamDecl) (inner : List Node) (done : List Branch)
    (kind : BranchKind) : kind ≠ .default → MayFollow done kind head →
    AtBranch head opener outer frames (inBranch ids params inner opener done kind head outer frames)
      (done.reverse ++ [⟨ids.next, kind, inner.reverse⟩]) ids.rest params

section

variable {head : FlowHead} (opener : Span) (outer : List Node) (frames : List (Frame × List Node))

/-- Outside loops, every branch with a condition may be followed. -/
theorem atBranch_cond (hloop : head.isLoop = false) (ids : IdSource) (params : List ParamDecl)
    (inner : List Node) (done : List Branch) (expr : Text) :
    AtBranch head opener outer frames
      (inBranch ids params inner opener done (.cond expr) head outer frames)
      (done.reverse ++ [⟨ids.next, .cond expr, inner.reverse⟩]) ids.rest params := by
  refine .mk ids params inner done (.cond expr) nofun ?_
  cases head with
  | forEach var e => cases hloop
  | ifThen | switch e => trivial

end

/-- A `{switch}` is opened, and blanks are read up to its first branch. -/
theorem readScan_head (b : Body) (expr : Text) (opener : Span) (blanks : List Blank) :
    ∃ nodes, AllBlank nodes ∧ ∀ rest error,
      b.readScan (.command (.switch expr) opener :: (blanks.map Blank.token ++ rest)) error
        = (inHead (idsAfterBlanks b.ids blanks)
            ((blanks.flatMap Blank.declared).reverse ++ b.params) nodes opener expr b.nodes
            b.frames).readScan rest error := by
  have hopen : b.step (.command (.switch expr) opener)
      = .ok (inHead b.ids b.params [] opener expr b.nodes b.frames) := rfl
  obtain ⟨nodes, hblank, hread⟩ := readScan_blanks
    (inHead b.ids b.params [] opener expr b.nodes b.frames) rfl blanks
  exact ⟨nodes, hblank, fun rest error => (readScan_step hopen _ error).trans (hread rest error)⟩

/-- Blanks are read up to a parameter of a call. -/
theorem readScan_inCall (ids : IdSource) (params : List ParamDecl) (opener : Span) (callee : Text)
    (done : List Param) (outer : List Node) (frames : List (Frame × List Node))
    (blanks : List Blank) : ∃ nodes, AllBlank nodes ∧ ∀ rest error,
      (inCall ids params [] opener callee done outer frames).readScan
          (blanks.map Blank.token ++ rest) error
        = (inCall (idsAfterBlanks ids blanks) ((blanks.flatMap Blank.declared).reverse ++ params)
            nodes opener callee done outer frames).readScan rest error :=
  readScan_blanks (inCall ids params [] opener callee done outer frames) rfl blanks

mutual

/-- An item is read. -/
theorem readScan_item : ∀ (item : Item) (b : Body) (rest : List Token)
    (error : Option SyntaxError),
    b.readScan (item.tokens ++ rest) error = (b.after [item]).readScan rest error
  | .text t location, b, rest, error => by
    rw [Item.tokens]
    exact readScan_step rfl rest error
  | .special [] location, b, rest, error => by
    rw [Item.tokens]
    exact readScan_step rfl rest error
  | .special (c :: cs) location, b, rest, error => by
    rw [Item.tokens]
    exact readScan_step rfl rest error
  | .print expr location, b, rest, error => by
    rw [Item.tokens]
    exact readScan_step rfl rest error
  | .declare name type location, b, rest, error => by
    rw [Item.tokens]
    exact readScan_step rfl rest error
  | .call callee location, b, rest, error => by
    rw [Item.tokens]
    exact readScan_step rfl rest error
  | .callWith callee opener args blanks closer, b, rest, error => by
    have hopen : b.step (.command (.call callee false) opener)
        = .ok (inCall b.ids b.params [] opener callee [] b.nodes b.frames) := rfl
    rw [Item.tokens, List.cons_append, readScan_step hopen, List.append_assoc, List.append_assoc,
      readScan_args args]
    obtain ⟨nodes, hblank, hread⟩ := readScan_inCall (paramsOf b.ids args).2
      ((declaredInArgs args).reverse ++ b.params) opener callee
      ((paramsOf b.ids args).1.reverse ++ []) b.nodes b.frames blanks
    rw [hread]
    refine readScan_step ((step_closeCall hblank).trans ?_) rest error
    simp [after, nodesOf, Item.nodes, declaredIn, Item.declared]
  | .bind var expr kind location, b, rest, error => by
    rw [Item.tokens]
    exact readScan_step rfl rest error
  | .bindBody var kind opener body closer, b, rest, error => by
    have hopen : b.step (.command (.binding var none kind) opener)
        = .ok (b.enter (.letBody opener var kind)) := rfl
    rw [Item.tokens, List.cons_append, readScan_step hopen, List.append_assoc,
      readScan_tokensOf body]
    refine readScan_step (step_closeBinding.trans ?_) rest error
    simp [enter, after, nodesOf, Item.nodes, declaredIn, Item.declared]
  | .ifThen cond opener body elseIfs otherwise closer, b, rest, error => by
    have hopen : b.step (.command (.ifThen cond) opener)
        = .ok (inBranch b.ids b.params [] opener [] (.cond cond) .ifThen b.nodes b.frames) := rfl
    obtain ⟨b', hat, hclauses⟩ := readScan_clauses .ifThen rfl elseIfs
      (atBranch_cond opener b.nodes b.frames rfl _ _ _ [] cond)
    rw [Item.tokens, List.cons_append, readScan_step hopen]
    simp only [List.append_assoc]
    rw [readScan_tokensOf body, after_inBranch]
    refine (hclauses _ error).trans ((readScan_last otherwise hat closer rest error).trans ?_)
    congr 1
    simp [after, nodesOf, Item.nodes, declaredIn, Item.declared]
  | .switch expr opener blanks [] none closer, b, rest, error => by
    obtain ⟨nodes, hblank, hread⟩ := readScan_head b expr opener blanks
    rw [Item.tokens]
    simp only [List.append_assoc, List.cons_append, tokensOfClauses, tokensOfFallback,
      List.nil_append]
    rw [hread]
    refine readScan_step ((step_closeHead hblank expr).trans ?_) rest error
    simp [after, nodesOf, Item.nodes, branchesOf, lastBranchOf, declaredIn, Item.declared,
      declaredInClauses, declaredInFallback]
  | .switch expr opener blanks [] (some ⟨o, body⟩) closer, b, rest, error => by
    obtain ⟨nodes, hblank, hread⟩ := readScan_head b expr opener blanks
    rw [Item.tokens]
    simp only [List.append_assoc, List.cons_append, tokensOfClauses, tokensOfFallback,
      Fallback.tokens, List.nil_append]
    rw [hread, readScan_step (step_onlyDefault hblank expr), readScan_tokensOf body, after_inBranch]
    have hfollow : MayFollow [] .default (.switch expr) := trivial
    refine readScan_step ((step_closeFlow hfollow).trans ?_) rest error
    simp [after, nodesOf, Item.nodes, branchesOf, lastBranchOf, Fallback.branch, declaredIn,
      Item.declared, declaredInClauses, declaredInFallback, Fallback.declared]
  | .switch expr opener blanks (⟨e, o, body⟩ :: cases) otherwise closer, b, rest, error => by
    obtain ⟨nodes, hblank, hread⟩ := readScan_head b expr opener blanks
    obtain ⟨b', hat, hclauses⟩ := readScan_clauses (.switch expr) rfl cases
      (atBranch_cond opener b.nodes b.frames rfl _ _ _ [] e)
    rw [Item.tokens]
    simp only [List.append_assoc, List.cons_append, tokensOfClauses, Clause.tokens]
    rw [hread, readScan_step (step_firstCase hblank expr e), readScan_tokensOf body, after_inBranch]
    refine (hclauses _ error).trans ((readScan_last otherwise hat closer rest error).trans ?_)
    congr 1
    simp [after, nodesOf, Item.nodes, branchesOf, Clause.branch, declaredIn, Item.declared,
      declaredInClauses, Clause.declared]
  | .forEach var expr opener body ifEmpty closer, b, rest, error => by
    have hopen : b.step (.command (.forEach var expr) opener)
        = .ok (inBranch b.ids b.params [] opener [] .loopBody (.forEach var expr) b.nodes b.frames) :=
      rfl
    rw [Item.tokens, List.cons_append, readScan_step hopen]
    simp only [List.append_assoc]
    rw [readScan_tokensOf body, after_inBranch]
    have hfollow : MayFollow [] .loopBody (.forEach var expr) := .inl ⟨rfl, rfl⟩
    refine (readScan_last ifEmpty (.mk _ _ _ [] .loopBody nofun hfollow) closer rest error).trans ?_
    congr 1
    simp [after, nodesOf, Item.nodes, declaredIn, Item.declared]

/-- **A derived body is read.** -/
theorem readScan_tokensOf : ∀ (items : List Item) (b : Body) (rest : List Token)
    (error : Option SyntaxError),
    b.readScan (tokensOf items ++ rest) error = (b.after items).readScan rest error
  | [], b, rest, error => by
    rw [tokensOf, List.nil_append, Body.after_nil]
  | item :: items, b, rest, error => by
    rw [tokensOf, List.append_assoc, readScan_item item, readScan_tokensOf items, ← after_append]
    rfl

/-- The parameters of a call are read. -/
theorem readScan_args : ∀ (args : List Arg) {ids : IdSource} {params : List ParamDecl}
    {opener : Span} {callee : Text} {done : List Param} {outer : List Node}
    {frames : List (Frame × List Node)} (rest : List Token) (error : Option SyntaxError),
    (inCall ids params [] opener callee done outer frames).readScan (tokensOfArgs args ++ rest) error
      = (inCall (paramsOf ids args).2 ((declaredInArgs args).reverse ++ params) [] opener callee
          ((paramsOf ids args).1.reverse ++ done) outer frames).readScan rest error
  | [], _, _, _, _, _, _, _, rest, error => by
    simp [tokensOfArgs, paramsOf, declaredInArgs]
  | .expr blanks name expr kind location :: args, ids, params, opener, callee, done, outer, frames,
      rest, error => by
    obtain ⟨nodes, hblank, hread⟩ := readScan_inCall ids params opener callee done outer frames blanks
    rw [tokensOfArgs, Arg.tokens]
    simp only [List.append_assoc, List.cons_append, List.nil_append]
    rw [hread, readScan_step (step_param hblank ..), readScan_args args]
    simp [paramsOf, Arg.param, declaredInArgs, Arg.declared]
  | .content blanks name kind paramOpener body closer :: args, ids, params, opener, callee, done,
      outer, frames, rest, error => by
    obtain ⟨nodes, hblank, hread⟩ := readScan_inCall ids params opener callee done outer frames blanks
    rw [tokensOfArgs, Arg.tokens]
    simp only [List.append_assoc, List.cons_append, List.nil_append]
    rw [hread, readScan_step (step_paramContent hblank ..), readScan_tokensOf body]
    refine (readScan_step step_closeParam _ error).trans ?_
    rw [readScan_args args]
    simp [paramsOf, Arg.param, declaredInArgs, Arg.declared]

/-- The last branch of control flow is read, and what closes it. -/
theorem readScan_last : ∀ (otherwise : Option Fallback) {head : FlowHead} {opener : Span}
    {outer : List Node} {frames : List (Frame × List Node)} {b : Body} {branches : List Branch}
    {ids : IdSource} {params : List ParamDecl}
    (_ : AtBranch head opener outer frames b branches ids params) (closer : Span)
    (rest : List Token) (error : Option SyntaxError),
    b.readScan (tokensOfFallback head.lastCommand otherwise
        ++ ([.command (.close head.command.toList) closer] ++ rest)) error
      = readScan ⟨(lastBranchOf ids otherwise).2.rest,
          (declaredInFallback otherwise).reverse ++ params,
          .flow ⟨(lastBranchOf ids otherwise).2.next, opener.union closer, head,
            branches ++ (lastBranchOf ids otherwise).1⟩ :: outer, frames⟩ rest error
  | none, _, _, _, _, _, _, _, _, .mk ids params inner done kind hkind hfollow, closer, rest,
      error => by
    rw [tokensOfFallback, List.nil_append]
    refine readScan_step ((step_closeFlow hfollow).trans ?_) rest error
    simp [lastBranchOf, declaredInFallback]
  | some ⟨o, body⟩, head, _, _, _, _, _, _, _, .mk ids params inner done kind hkind hfollow, closer,
      rest, error => by
    have hdefault : MayFollow (⟨ids.next, kind, inner.reverse⟩ :: done) .default head := by
      cases head <;> first | trivial | exact .inr rfl
    rw [tokensOfFallback, Fallback.tokens, List.cons_append,
      readScan_step (step_last hfollow hkind), readScan_tokensOf body, after_inBranch]
    refine readScan_step ((step_closeFlow hdefault).trans ?_) rest error
    simp [lastBranchOf, Fallback.branch, declaredInFallback, Fallback.declared]

/-- The later branches with conditions are read. -/
theorem readScan_clauses (head : FlowHead) (hloop : head.isLoop = false) :
    ∀ (clauses : List Clause) {opener : Span} {outer : List Node}
    {frames : List (Frame × List Node)} {b : Body} {branches : List Branch} {ids : IdSource}
    {params : List ParamDecl} (_ : AtBranch head opener outer frames b branches ids params),
    ∃ b', AtBranch head opener outer frames b' (branches ++ (branchesOf ids clauses).1)
        (branchesOf ids clauses).2 ((declaredInClauses clauses).reverse ++ params)
      ∧ ∀ rest error, b.readScan (tokensOfClauses head.clauseCommand clauses ++ rest) error
        = b'.readScan rest error
  | [], _, _, _, b, branches, ids, params, hat => by
    refine ⟨b, ?_, fun rest error => by rw [tokensOfClauses, List.nil_append]⟩
    simpa [branchesOf, declaredInClauses] using hat
  | ⟨expr, o, body⟩ :: clauses, _, _, _, _, _, _, _, .mk ids params inner done kind hkind _ => by
    obtain ⟨b', hat, hread⟩ := readScan_clauses head hloop clauses (atBranch_cond _ _ _ hloop
      (nodesOf ids.rest body).2 ((declaredIn body).reverse ++ params)
      ((nodesOf ids.rest body).1.reverse ++ []) (⟨ids.next, kind, inner.reverse⟩ :: done) expr)
    refine ⟨b', ?_, fun rest error => ?_⟩
    · simpa [branchesOf, Clause.branch, declaredInClauses, Clause.declared] using hat
    · rw [tokensOfClauses, Clause.tokens, List.append_assoc, List.cons_append,
        readScan_step (step_clause hloop hkind expr), readScan_tokensOf body, after_inBranch, hread]

end

end Body

end TemplateMarkup
