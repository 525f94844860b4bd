/-
# Source text of what was read

Not all that is read is written as text that reads the same: `\x7blb\x7d` is read as a brace, and a
brace in the source text of a tree opens a command.  `Node.unambiguous` says what a node's own texts
must not be.  The source text of a template whose nodes are unambiguous is accepted again, and read
as the tree with its texts joined, but for names and places (`Template.read_of_read`).

The tokens that the template was cut into carry the proof: each command in them stood in some source
(`CutsInto.genuine`), so it can be printed as it was read (`Respelled`), and the items that the
grammar derived from them stand for a legible tree (`legible_nodesOf`).
-/
import TemplateMarkup.Proofs.Template.Legible
import TemplateMarkup.Proofs.Template.Respelled

namespace TemplateMarkup

open Command (quoteless openEnded unpadded)

/-! ## 1. Unambiguous trees -/

/-- The name can stand in a command in front of the kind, or alone at the end of the command. -/
def standsBefore (kind : Option ContentKind) (name : Text) : Bool :=
  quoteless name && (kind.isSome || unpadded name && openEnded name)

/-- The parameter's name is read as it is printed. -/
def Param.unambiguous : Param → Bool
  | ⟨_, _, name, .content kind _⟩ => standsBefore kind name
  | ⟨_, _, _, .expr _⟩ => true

/-- The condition of a branch is. -/
def BranchKind.unambiguous : BranchKind → Bool
  | .cond expr => openEnded expr
  | _ => true

/-- The variable and the expression of control flow are. -/
def FlowHead.unambiguous : FlowHead → Bool
  | ifThen => true
  | switch expr => openEnded expr
  | forEach var expr => !" in".toList.isSuffixOf var && openEnded expr

/-- The node's own texts are read as they are printed: text with no `\x7b`, an expression that is
no other command, names without quotes or blanks, and no slash at the end of a command that has
something inside. -/
def Node.unambiguous : Node → Bool
  | .raw _ _ t => !t.contains '{'
  | .print _ _ expr => decide ((Command.read expr).toOption = some (.print expr))
  | .call _ _ callee params => quoteless callee && unpadded callee
    && (params.isEmpty || openEnded callee) && params.all Param.unambiguous
  | .binding _ _ var (.content kind _) => standsBefore kind var
  | .flow f => f.head.unambiguous && f.branches.all fun b => b.kind.unambiguous
  | _ => true

/-- So are those of all nodes of a tree. -/
def Unambiguous (nodes : List Node) : Prop := ∀ n ∈ nodes, n.unambiguous = true

instance (nodes : List Node) : Decidable (Unambiguous nodes) :=
  inferInstanceAs (Decidable (∀ n ∈ nodes, n.unambiguous = true))

theorem unambiguous_append {l l' : List Node} :
    Unambiguous (l ++ l') ↔ Unambiguous l ∧ Unambiguous l' := List.forall_mem_append

theorem unambiguous_cons {n : Node} {l : List Node} :
    Unambiguous (n :: l) ↔ n.unambiguous = true ∧ Unambiguous l := List.forall_mem_cons

/-! ## 2. Tokens that stood in a source -/

/-- The text is not empty, or the command was written somewhere. -/
def Token.Genuine : Token → Prop
  | .text t _ => t ≠ []
  | .command c _ => c.Written

/-- All of them. -/
def AllGenuine (tokens : List Token) : Prop := ∀ token ∈ tokens, token.Genuine

theorem allGenuine_append {l l' : List Token} :
    AllGenuine (l ++ l') ↔ AllGenuine l ∧ AllGenuine l' := List.forall_mem_append

theorem allGenuine_cons {token : Token} {l : List Token} :
    AllGenuine (token :: l) ↔ token.Genuine ∧ AllGenuine l := List.forall_mem_cons

/-- The tokens of a cut are. -/
theorem CutsInto.genuine {pos : Nat} {src : Text} {tokens : List Token}
    (h : CutsInto pos src tokens) : AllGenuine tokens := by
  induction h with
  | nil => exact nofun
  | text _ _ _ hne _ _ _ ih => exact allGenuine_cons.mpr ⟨hne, ih⟩
  | command _ _ _ hu hread _ ih => exact allGenuine_cons.mpr ⟨⟨_, hu, hread⟩, ih⟩

/-! ## 3. Commands of unambiguous nodes -/

section

variable {expr : Text}

theorem BranchKind.legible_if (h : (Command.ifThen expr).Written)
    (hu : openEnded expr = true) : BranchKind.Legible true .ifThen (.cond expr) :=
  Command.spells_ifThen (h.expr (by simp)) (Command.getLast?_of_openEnded hu)

theorem BranchKind.legible_elseIf (h : (Command.elseIf expr).Written)
    (hu : openEnded expr = true) : BranchKind.Legible false .ifThen (.cond expr) :=
  Command.spells_elseIf (h.expr (by simp)) (Command.getLast?_of_openEnded hu)

theorem BranchKind.legible_case {isFirst : Bool} {value : Text} (h : (Command.caseOf expr).Written)
    (hu : openEnded expr = true) : BranchKind.Legible isFirst (.switch value) (.cond expr) :=
  Command.spells_caseOf (h.expr (by simp)) (Command.getLast?_of_openEnded hu)

theorem FlowHead.legible_switch (h : (Command.switch expr).Written)
    (hu : openEnded expr = true) : (FlowHead.switch expr).Legible :=
  Command.spells_switch (h.expr (by simp)) (Command.getLast?_of_openEnded hu)

theorem FlowHead.legible_forEach {var : Text} (h : (Command.forEach var expr).Written)
    (hu : (FlowHead.forEach var expr).unambiguous = true) : (FlowHead.forEach var expr).Legible := by
  simp only [FlowHead.unambiguous, Bool.and_eq_true, Bool.not_eq_true', Bool.eq_false_iff,
    ne_eq, List.isSuffixOf_iff_suffix] at hu
  exact h.forEach hu.1 (Command.getLast?_of_openEnded hu.2)

end

/-- What a name that can stand before its kind is like. -/
theorem of_standsBefore {kind : Option ContentKind} {name : Text}
    (h : standsBefore kind name = true) : quoteless name = true
      ∧ (kind = none → unpadded name = true ∧ openEnded name = true) := by
  simp only [standsBefore, Bool.and_eq_true, Bool.or_eq_true] at h
  refine ⟨h.1, ?_⟩
  rintro rfl
  simpa using h.2

theorem legibleNodes_append {l l' : List Node} (h : LegibleNodes l) (h' : LegibleNodes l') :
    LegibleNodes (l ++ l') := by
  induction l with
  | nil => exact h'
  | cons n l ih =>
    rw [LegibleNodes] at h
    rw [List.cons_append, LegibleNodes]
    exact ⟨h.1, ih h.2⟩

/-- One node that is legible. -/
theorem legibleNodes_one {n : Node} (h : n.Legible) : LegibleNodes [n] := by
  rw [LegibleNodes, LegibleNodes]
  exact ⟨h, trivial⟩

/-! ## 4. Items -/

mutual

/-- **An item whose commands were written stands for legible nodes, if they are unambiguous.** -/
theorem Item.legible : ∀ (item : Item) (ids : IdSource), AllGenuine item.tokens →
    Unambiguous (walk (item.nodes ids).1) → LegibleNodes (item.nodes ids).1
  | .text t location, ids, hw, hu => by
    simp only [Item.nodes, walk, Node.walk, List.append_nil] at hu ⊢
    refine legibleNodes_one ?_
    rw [Node.Legible]
    exact ⟨hw _ List.mem_cons_self,
      by simpa [Node.unambiguous] using hu _ List.mem_cons_self⟩
  | .special t location, ids, hw, hu => by
    by_cases ht : t = []
    · rw [Item.nodes, if_pos ht, LegibleNodes]
      trivial
    · rw [Item.nodes, if_neg ht] at hu ⊢
      simp only [walk, Node.walk, List.append_nil] at hu
      refine legibleNodes_one ?_
      rw [Node.Legible]
      exact ⟨ht, by simpa [Node.unambiguous] using hu _ List.mem_cons_self⟩
  | .print expr location, ids, hw, hu => by
    simp only [Item.nodes, walk, Node.walk, List.append_nil] at hu ⊢
    refine legibleNodes_one ?_
    rw [Node.Legible]
    have hread := hu _ List.mem_cons_self
    rw [Node.unambiguous, decide_eq_true_iff, Command.toOption_read] at hread
    exact Command.Written.print (hw _ List.mem_cons_self) hread
  | .declare name type location, ids, hw, hu => by
    rw [Item.nodes, LegibleNodes]
    trivial
  | .call callee location, ids, hw, hu => by
    simp only [Item.nodes] at hu ⊢
    refine legibleNodes_one ?_
    rw [Node.Legible]
    have hcallee := hu (.call ids.next location callee []) (by simp [walk, Node.walk])
    simp only [Node.unambiguous, Bool.and_eq_true] at hcallee
    exact (Command.Written.call (hw _ List.mem_cons_self) hcallee.1.1.1 hcallee.1.1.2).1
  | .callWith callee opener args blanks closer, ids, hw, hu => by
    simp only [Item.nodes, walk, Node.walk, List.append_nil, unambiguous_cons] at hu ⊢
    simp only [Item.tokens, allGenuine_cons, allGenuine_append] at hw
    obtain ⟨hn, hu⟩ := hu
    simp only [Node.unambiguous, Bool.and_eq_true, Bool.or_eq_true] at hn
    obtain ⟨⟨⟨hq, hend⟩, hslash⟩, hall⟩ := hn
    have hparams := legible_paramsOf args ids hw.2.1.1 hall hu
    obtain ⟨halone, hopen⟩ := Command.Written.call hw.1 hq hend
    refine legibleNodes_one ?_
    cases h : (paramsOf ids args).1 with
    | nil =>
      rw [Node.Legible]
      exact halone
    | cons p params =>
      rw [h] at hslash hparams
      rw [LegibleParams] at hparams
      rw [Node.Legible]
      exact ⟨hopen (by simpa using hslash), hparams⟩
  | .bind var expr kind location, ids, hw, hu => by
    simp only [Item.nodes] at hu ⊢
    refine legibleNodes_one ?_
    rw [Node.Legible]
    exact ⟨kind, Command.Written.bindingExpr (hw _ List.mem_cons_self)⟩
  | .bindBody var kind opener body closer, ids, hw, hu => by
    simp only [Item.nodes, walk, Node.walk, Value.walk, List.append_nil, unambiguous_cons] at hu ⊢
    simp only [Item.tokens, allGenuine_cons, allGenuine_append] at hw
    refine legibleNodes_one ?_
    rw [Node.Legible]
    obtain ⟨hq, hend⟩ := of_standsBefore hu.1
    exact ⟨Command.Written.bindingContent hw.1 hq hend, legible_nodesOf body ids hw.2.1 hu.2⟩
  | .ifThen cond opener body elseIfs otherwise closer, ids, hw, hu => by
    simp only [Item.nodes, walk, Node.walk, Flow.walk, List.append_nil, List.cons_append,
      walkBranches, walkBranches_append, Branch.walk, unambiguous_cons, unambiguous_append] at hu ⊢
    simp only [Item.tokens, allGenuine_cons, allGenuine_append] at hw
    simp only [Node.unambiguous, List.all_cons, List.all_append, Bool.and_eq_true] at hu
    obtain ⟨⟨-, hcond, hkinds, -⟩, hbody, hclauses, hlast⟩ := hu
    refine legibleNodes_one ?_
    rw [Node.Legible, Flow.Legible, LegibleBranches]
    refine ⟨trivial, nofun, BranchKind.legible_if hw.1 hcond, nofun,
      legible_nodesOf body ids hw.2.1.1.1 hbody,
      legible_branchesOf elseIfs _ _ hw.2.1.1.2 hkinds hclauses (fun b hb expr h hu => ?_)
        fun b hb => legible_lastBranchOf otherwise _ hw.2.1.2 hlast ?_⟩
    all_goals obtain rfl : b = false := by simpa using hb
    · exact BranchKind.legible_elseIf h hu
    · exact rfl
  | .switch expr opener blanks cases otherwise closer, ids, hw, hu => by
    simp only [Item.nodes, walk, Node.walk, Flow.walk, List.append_nil, walkBranches_append,
      unambiguous_cons, unambiguous_append] at hu ⊢
    simp only [Item.tokens, allGenuine_cons, allGenuine_append] at hw
    simp only [Node.unambiguous, List.all_append, Bool.and_eq_true] at hu
    obtain ⟨⟨hexpr, hkinds, -⟩, hclauses, hlast⟩ := hu
    refine legibleNodes_one ?_
    rw [Node.Legible, Flow.Legible]
    exact ⟨FlowHead.legible_switch hw.1 hexpr, fun _ => ⟨expr, rfl⟩,
      legible_branchesOf cases _ _ hw.2.1.1.2 hkinds hclauses
        (fun b _ expr h hu => BranchKind.legible_case h hu)
        fun b _ => legible_lastBranchOf otherwise _ hw.2.1.2 hlast trivial⟩
  | .forEach var expr opener body ifEmpty closer, ids, hw, hu => by
    simp only [Item.nodes, walk, Node.walk, Flow.walk, List.append_nil, walkBranches, Branch.walk,
      unambiguous_cons, unambiguous_append] at hu ⊢
    simp only [Item.tokens, allGenuine_cons, allGenuine_append] at hw
    simp only [Node.unambiguous, Bool.and_eq_true] at hu
    obtain ⟨⟨hhead, -⟩, hbody, hlast⟩ := hu
    refine legibleNodes_one ?_
    rw [Node.Legible, Flow.Legible, LegibleBranches]
    exact ⟨FlowHead.legible_forEach hw.1 hhead, nofun, rfl, nofun,
      legible_nodesOf body ids hw.2.1.1 hbody,
      legible_lastBranchOf ifEmpty _ hw.2.1.2 hlast rfl⟩

/-- So does a body. -/
theorem legible_nodesOf : ∀ (items : List Item) (ids : IdSource), AllGenuine (tokensOf items) →
    Unambiguous (walk (nodesOf ids items).1) → LegibleNodes (nodesOf ids items).1
  | [], ids, _, _ => by
    rw [nodesOf, LegibleNodes]
    trivial
  | item :: items, ids, hw, hu => by
    simp only [tokensOf, allGenuine_append, nodesOf, walk_append, unambiguous_append] at hw hu ⊢
    exact legibleNodes_append (item.legible ids hw.1 hu.1) (legible_nodesOf items _ hw.2 hu.2)

/-- The parameters of a call. -/
theorem legible_paramsOf : ∀ (args : List Arg) (ids : IdSource), AllGenuine (tokensOfArgs args) →
    (paramsOf ids args).1.all Param.unambiguous = true →
    Unambiguous (walkParams (paramsOf ids args).1) → LegibleParams (paramsOf ids args).1
  | [], ids, _, _, _ => by
    rw [paramsOf, LegibleParams]
    trivial
  | .expr blanks name expr kind location :: args, ids, hw, hall, hu => by
    simp only [tokensOfArgs, Arg.tokens, allGenuine_append, allGenuine_cons, paramsOf, Arg.param,
      List.all_cons, Bool.and_eq_true, walkParams, Param.walk, Value.walk, List.nil_append]
      at hw hall hu ⊢
    rw [LegibleParams, Param.Legible]
    exact ⟨⟨kind, Command.Written.paramExpr hw.1.2.1⟩, legible_paramsOf args _ hw.2 hall.2 hu⟩
  | .content blanks name kind opener body closer :: args, ids, hw, hall, hu => by
    simp only [tokensOfArgs, Arg.tokens, allGenuine_append, allGenuine_cons, paramsOf, Arg.param,
      List.all_cons, Bool.and_eq_true, walkParams, Param.walk, Value.walk, unambiguous_append]
      at hw hall hu ⊢
    rw [LegibleParams, Param.Legible]
    obtain ⟨hq, hend⟩ := of_standsBefore hall.1
    exact ⟨⟨Command.Written.paramContent hw.1.2.1 hq hend,
      legible_nodesOf body _ hw.1.2.2.1 hu.1⟩, legible_paramsOf args _ hw.2 hall.2 hu.2⟩

/-- The branches with conditions, before a last branch. -/
theorem legible_branchesOf {head : FlowHead} {command : Text → Command} {last : List Branch} :
    ∀ (clauses : List Clause) (isFirst : Bool) (ids : IdSource),
    AllGenuine (tokensOfClauses command clauses) →
    ((branchesOf ids clauses).1.all fun b => b.kind.unambiguous) = true →
    Unambiguous (walkBranches (branchesOf ids clauses).1) →
    (∀ b ∈ [isFirst, false], ∀ expr, (command expr).Written → openEnded expr = true →
      BranchKind.Legible b head (.cond expr)) →
    (∀ b ∈ [isFirst, false], LegibleBranches head b last) →
    LegibleBranches head isFirst ((branchesOf ids clauses).1 ++ last)
  | [], isFirst, ids, _, _, _, _, hlast => by
    rw [branchesOf]
    exact hlast isFirst List.mem_cons_self
  | ⟨expr, opener, body⟩ :: clauses, isFirst, ids, hw, hall, hu, hcond, hlast => by
    simp only [tokensOfClauses, Clause.tokens, allGenuine_append, allGenuine_cons, branchesOf,
      Clause.branch, List.all_cons, Bool.and_eq_true, walkBranches, Branch.walk,
      unambiguous_append, List.cons_append] at hw hall hu ⊢
    have hfalse {b : Bool} (hb : b ∈ [false, false]) : b ∈ [isFirst, false] := by
      simpa using .inr (by simpa using hb)
    rw [LegibleBranches]
    exact ⟨hcond isFirst List.mem_cons_self expr hw.1 hall.1, nofun,
      legible_nodesOf body ids hw.2.1 hu.1,
      legible_branchesOf clauses false _ hw.2.2 hall.2 hu.2 (fun b hb => hcond b (hfalse hb))
        fun b hb => hlast b (hfalse hb)⟩

/-- The last branch. -/
theorem legible_lastBranchOf {head : FlowHead} {isFirst : Bool} {command : Command} :
    ∀ (otherwise : Option Fallback) (ids : IdSource),
    AllGenuine (tokensOfFallback command otherwise) →
    Unambiguous (walkBranches (lastBranchOf ids otherwise).1) →
    BranchKind.Legible isFirst head .default →
    LegibleBranches head isFirst (lastBranchOf ids otherwise).1
  | none, ids, _, _, _ => by
    rw [lastBranchOf, LegibleBranches]
    trivial
  | some ⟨opener, body⟩, ids, hw, hu, hdefault => by
    simp only [tokensOfFallback, Fallback.tokens, allGenuine_cons, lastBranchOf, Fallback.branch,
      walkBranches, Branch.walk, List.append_nil] at hw hu ⊢
    rw [LegibleBranches, LegibleBranches]
    exact ⟨hdefault, fun _ => rfl, legible_nodesOf body ids hw.2 hu, trivial⟩

end

/-! ## 5. Templates -/

/-- **The source text of a template that was read is read as the template.**  If its nodes are
unambiguous it is accepted, as the same kind of content, and its nodes are those of the template
with their texts joined, but for numbers and places. -/
theorem Template.read_of_read {src : Text} {kind : ContentKind} {ids ids' : IdSource} {t : Template}
    (h : Template.read src kind ids = .ok (t, ids')) (hu : Unambiguous (walk t.nodes))
    (ids₂ : IdSource) : ∃ t₂ ids₃, Template.read (source t.nodes) t.kind ids₂ = .ok (t₂, ids₃)
      ∧ t₂.kind = t.kind ∧ bare t₂.nodes = bare (joined false t.nodes) := by
  obtain ⟨items, hcut, rfl, -⟩ := Template.read_eq_ok.mp h
  exact Template.read_of_legible (legible_nodesOf items ids hcut.genuine hu) _ ids₂

/-- A source in other words than those that are printed: a blank as a command, a `print`, a
parameter without a slash, a `foreach`. -/
def inOtherWords : Text :=
  'a' :: braced "sp".toList ++ 'b' :: braced "print $x ".toList ++ braced "call .f".toList
    ++ braced "param p:$y".toList ++ braced "/call".toList ++ braced "foreach $i in $l".toList
    ++ braced "$i".toList ++ braced "/for".toList

theorem Template.read_of_read_inOtherWords :
    ∃ t ids', Template.read inOtherWords .html (.startingAt 1) = .ok (t, ids')
      ∧ Unambiguous (walk t.nodes)
      ∧ source t.nodes = "a b".toList ++ braced "$x".toList ++ braced "call .f".toList
        ++ braced "param p: $y /".toList ++ braced "/call".toList ++ braced "for $i in $l".toList
        ++ braced "$i".toList ++ braced "/for".toList
      ∧ ∃ t₂ ids₃, Template.read (source t.nodes) t.kind (.startingAt 1) = .ok (t₂, ids₃)
        ∧ t₂.kind = t.kind ∧ bare t₂.nodes = bare (joined false t.nodes) := by
  have hread : (Template.read inOtherWords .html (.startingAt 1)).toOption.any (fun r =>
      decide (Unambiguous (walk r.1.nodes) ∧ source r.1.nodes = "a b".toList ++ braced "$x".toList
        ++ braced "call .f".toList ++ braced "param p: $y /".toList ++ braced "/call".toList
        ++ braced "for $i in $l".toList ++ braced "$i".toList ++ braced "/for".toList)) = true := by
    decide +kernel
  cases h : Template.read inOtherWords .html (.startingAt 1) with
  | error e => rw [h] at hread; cases hread
  | ok r =>
    obtain ⟨t, ids'⟩ := r
    rw [h] at hread
    obtain ⟨hu, hsource⟩ := of_decide_eq_true hread
    exact ⟨t, ids', rfl, hu, hsource, Template.read_of_read h hu _⟩

/-- A brace that a command stands for is read, and its source text is not accepted. -/
theorem Template.read_source_brace :
    ∃ t ids', Template.read (braced "lb".toList) .html (.startingAt 1) = .ok (t, ids')
      ∧ ∀ ids t₂ ids₃, Template.read (source t.nodes) t.kind ids ≠ .ok (t₂, ids₃) := by
  have hread : (Template.read (braced "lb".toList) .html (.startingAt 1)).toOption.any
      (fun r => source r.1.nodes == ['{']) = true := by decide +kernel
  have hbrace (kind : ContentKind) (ids : IdSource) (t₂ : Template) (ids₃ : IdSource) :
      Template.read ['{'] kind ids ≠ .ok (t₂, ids₃) := by
    intro h
    obtain ⟨items, hcut, -⟩ := Template.read_eq_ok.mp h
    have hscan := Token.scan_eq_iff.mpr hcut
    rw [Token.scan] at hscan
    cases congrArg Prod.snd hscan
  cases h : Template.read (braced "lb".toList) .html (.startingAt 1) with
  | error e => rw [h] at hread; cases hread
  | ok r =>
    obtain ⟨t, ids'⟩ := r
    rw [h] at hread
    have hsource : source t.nodes = ['{'] := eq_of_beq hread
    exact ⟨t, ids', rfl, fun ids t₂ ids₃ => hsource ▸ hbrace t.kind ids t₂ ids₃⟩

end TemplateMarkup
