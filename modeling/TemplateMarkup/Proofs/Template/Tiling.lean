/-
# How the nodes of a template tile its source

The tokens of a source stand one right after the other and fill it (`Stand`).  Two commands leave
nothing in the tree, `{nil}` and the declaration of a parameter, so in every list of nodes the
source between two neighbours is made of these alone (`Tiles`), and raw text is the source in its
place, or the character that the command in its place stands for.

`Template.read_tiles` says so of every list of a tree: of the body, of branches, of content.  It is
proved along the derivation of the body, with one lemma for a list of items (`tile_nodesOf`) and one
for a construct between its commands (`tiledNode_construct`).
-/
import TemplateMarkup.Proofs.Html.RunPlaces

namespace TemplateMarkup

/-! ## 1. Stretches of a source -/

namespace Text

/-- From byte `lo` up to byte `hi` the source reads `t`. -/
def Reads (src : Text) (lo hi : Nat) (t : Text) : Prop :=
  ∃ before after, src = before ++ (t ++ after) ∧ before.size = lo ∧ lo + t.size = hi

/-- Where a source is cut is told by the offset. -/
theorem append_inj_of_size : ∀ {u v u' v' : Text}, u ++ v = u' ++ v' → u.size = u'.size →
    u = u' ∧ v = v'
  | [], v, [], v', h, _ => ⟨rfl, h⟩
  | [], _, c :: u', _, _, hs => by
    have := c.utf8Size_pos
    simp only [size_nil, size_cons] at hs
    omega
  | c :: u, _, [], _, _, hs => by
    have := c.utf8Size_pos
    simp only [size_nil, size_cons] at hs
    omega
  | c :: u, v, c' :: u', v', h, hs => by
    rw [List.cons_append, List.cons_append, List.cons.injEq] at h
    obtain ⟨rfl, h⟩ := h
    simp only [size_cons, Nat.add_left_cancel_iff] at hs
    obtain ⟨rfl, rfl⟩ := append_inj_of_size h hs
    exact ⟨rfl, rfl⟩

variable {src t u : Text} {lo mid hi : Nat}

theorem Reads.le (h : src.Reads lo hi t) : lo ≤ hi := by
  obtain ⟨_, _, _, _, rfl⟩ := h
  exact Nat.le_add_right ..

theorem reads_nil (h : src.Boundary lo) : src.Reads lo lo [] := by
  obtain ⟨before, after, rfl, rfl⟩ := h
  exact ⟨before, after, rfl, rfl, rfl⟩

theorem Reads.boundary (h : src.Reads lo hi t) : src.Boundary lo := by
  obtain ⟨before, after, rfl, rfl, _⟩ := h
  exact ⟨before, t ++ after, rfl, rfl⟩

/-- Neighbouring stretches are one. -/
theorem Reads.append (h : src.Reads lo mid t) (h' : src.Reads mid hi u) :
    src.Reads lo hi (t ++ u) := by
  obtain ⟨before, after, rfl, rfl, rfl⟩ := h
  obtain ⟨before', after', heq, hsize, rfl⟩ := h'
  rw [← List.append_assoc] at heq
  obtain ⟨rfl, rfl⟩ := append_inj_of_size heq (by rw [hsize, size_append])
  refine ⟨before, after', ?_, rfl, ?_⟩
  · rw [List.append_assoc]
  · rw [size_append, Nat.add_assoc]

end Text

/-- The command leaves nothing in the tree. -/
def Command.IsSilent (command : Command) : Prop :=
  command = .special [] ∨ ∃ name type, command = .paramDecl name type

/-- Text of `{nil}` and `{@param}` commands alone. -/
inductive Silence : Text → Prop
  | nil : Silence []
  | cons {inner t : Text} {command : Command} : Spells inner command → command.IsSilent →
    Silence t → Silence (braced inner ++ t)

theorem Silence.append {t u : Text} (h : Silence t) (hu : Silence u) : Silence (t ++ u) := by
  induction h with
  | nil => exact hu
  | cons hspells hsilent _ ih =>
    rw [List.append_assoc]
    exact .cons hspells hsilent ih

namespace Text

/-- Between two offsets the source is made of `{nil}` and `{@param}` commands. -/
def Silent (src : Text) (lo hi : Nat) : Prop := ∃ t, src.Reads lo hi t ∧ Silence t

variable {src : Text} {lo mid hi : Nat}

theorem silent_self (h : src.Boundary lo) : src.Silent lo lo := ⟨[], reads_nil h, .nil⟩

theorem Silent.le (h : src.Silent lo hi) : lo ≤ hi := by
  obtain ⟨t, hreads, _⟩ := h
  exact hreads.le

theorem Silent.append (h : src.Silent lo mid) (h' : src.Silent mid hi) : src.Silent lo hi := by
  obtain ⟨t, hreads, hsilence⟩ := h
  obtain ⟨u, hreads', hsilence'⟩ := h'
  exact ⟨t ++ u, hreads.append hreads', hsilence.append hsilence'⟩

end Text

/-! ## 2. Tokens -/

/-- The characters of the token stand in its place. -/
def Token.StandsIn (src : Text) : Token → Prop
  | .text t s => t ≠ [] ∧ src.Reads s.start s.stop t
  | .command c s => ∃ inner, Spells inner c ∧ src.Reads s.start s.stop (braced inner)

/-- The tokens fill the source between two offsets, one right after the other. -/
def Stand (src : Text) : Nat → List Token → Nat → Prop
  | lo, [], hi => src.Boundary lo ∧ lo = hi
  | lo, token :: tokens, hi =>
    token.location.start = lo ∧ token.StandsIn src ∧ Stand src token.location.stop tokens hi

section

variable {src : Text} {lo hi : Nat} {token : Token} {tokens tokens' : List Token}

/-- No token is empty. -/
theorem Token.StandsIn.start_lt_stop (h : token.StandsIn src) :
    token.location.start < token.location.stop := by
  cases token with
  | text t s =>
    obtain ⟨hne, _, _, _, _, hstop⟩ := h
    have := Text.size_pos hne
    simp only [Token.location]
    omega
  | command command s =>
    obtain ⟨inner, _, _, _, _, _, hstop⟩ := h
    rw [size_braced] at hstop
    simp only [Token.location]
    omega

theorem Token.StandsIn.boundary (h : token.StandsIn src) : src.Boundary token.location.start := by
  cases token with
  | text t s => exact h.2.boundary
  | command command s =>
    obtain ⟨inner, _, hreads⟩ := h
    exact hreads.boundary

theorem Stand.boundary (h : Stand src lo tokens hi) : src.Boundary lo := by
  cases tokens with
  | nil => exact h.1
  | cons token tokens =>
    obtain ⟨rfl, htoken, _⟩ := h
    exact htoken.boundary

theorem Stand.le : ∀ {tokens : List Token} {lo : Nat}, Stand src lo tokens hi → lo ≤ hi
  | [], _, h => Nat.le_of_eq h.2
  | token :: tokens, _, ⟨hstart, htoken, htokens⟩ => by
    have := htoken.start_lt_stop
    have := Stand.le htokens
    omega

theorem stand_append : Stand src lo (tokens ++ tokens') hi
    ↔ ∃ mid, Stand src lo tokens mid ∧ Stand src mid tokens' hi := by
  induction tokens generalizing lo with
  | nil =>
    constructor
    · intro h
      exact ⟨lo, ⟨h.boundary, rfl⟩, h⟩
    · rintro ⟨mid, ⟨_, rfl⟩, h⟩
      exact h
  | cons token tokens ih =>
    simp only [List.cons_append, Stand, ih]
    constructor
    · rintro ⟨hstart, htoken, mid, h, h'⟩
      exact ⟨mid, ⟨hstart, htoken, h⟩, h'⟩
    · rintro ⟨mid, ⟨hstart, htoken, h⟩, h'⟩
      exact ⟨hstart, htoken, mid, h, h'⟩

/-- A construct stands from its first command to its last. -/
theorem stand_construct {opener closer : Token} (h : Stand src lo (opener :: (tokens ++ [closer])) hi) :
    opener.location.start = lo ∧ closer.location.stop = hi ∧ opener.StandsIn src
      ∧ Stand src opener.location.stop tokens closer.location.start := by
  obtain ⟨hlo, hopener, hrest⟩ := h
  obtain ⟨mid, htokens, rfl, _, _, hhi⟩ := stand_append.mp hrest
  exact ⟨hlo, hhi, hopener, htokens⟩

/-- The tokens of the rest of a source stand in the source, from where the rest begins. -/
theorem CutsInto.stand {pos : Nat} {rest : Text} {tokens : List Token}
    (h : CutsInto pos rest tokens) : ∀ {src before : Text}, src = before ++ rest →
    before.size = pos → Stand src pos tokens src.size := by
  induction h with
  | nil =>
    rintro src before rfl rfl
    exact ⟨⟨before, [], rfl, rfl⟩, by simp⟩
  | @text pos t rest tokens location hstart hstop hne _ _ _ ih =>
    rintro src before rfl rfl
    refine ⟨hstart, ⟨hne, before, rest, rfl, hstart.symm, ?_⟩, @ih _ (before ++ t) ?_ ?_⟩
    · rw [hstart, hstop]
    · exact (List.append_assoc before t rest).symm
    · rw [hstop, Text.size_append]
  | @command pos inner rest command tokens location hstart hstop hunbraced hread _ ih =>
    rintro src before rfl rfl
    have hsize : before.size + (TemplateMarkup.braced inner).size = location.stop := by
      rw [hstop, size_braced, Nat.add_assoc]
    refine ⟨hstart, ⟨inner, ⟨hunbraced, hread⟩, before, rest, rfl, hstart.symm, ?_⟩,
      @ih _ (before ++ TemplateMarkup.braced inner) ?_ ?_⟩
    · rw [hstart, hsize]
    · exact (List.append_assoc before (TemplateMarkup.braced inner) rest).symm
    · rw [Text.size_append, hsize]

end

/-! ## 3. Nodes -/

/-- The span begins and ends before the other begins. -/
def Span.Before (s t : Span) : Prop := s.start < t.start ∧ s.stop ≤ t.start

/-- What is left between two offsets before, between and after the spans. -/
def gaps (lo : Nat) : List Span → Nat → List (Nat × Nat)
  | [], hi => [(lo, hi)]
  | s :: spans, hi => (lo, s.start) :: gaps s.stop spans hi

/-- **The nodes tile the source between two offsets.**  They stand one before the other, and what is
left of the source are commands that leave nothing in the tree. -/
structure Tiles (src : Text) (lo : Nat) (nodes : List Node) (hi : Nat) : Prop where
  ordered : (locations nodes).Pairwise Span.Before
  inside : ∀ s ∈ locations nodes, lo ≤ s.start ∧ s.start < s.stop ∧ s.stop ≤ hi
  silent : ∀ gap ∈ gaps lo (locations nodes) hi, src.Silent gap.1 gap.2

/-- The text is the source in its place, or the character of the command there. -/
def Span.Shows (src : Text) (s : Span) (t : Text) : Prop :=
  src.Reads s.start s.stop t
    ∨ ∃ c inner, t = [c] ∧ Spells inner (.special t) ∧ src.Reads s.start s.stop (braced inner)

/-- The node shows the source in its place: raw text does, the parameters of a call stand one before
the other in it, and the nodes of every part tile a stretch of that part. -/
structure Node.Tiled (src : Text) (n : Node) : Prop where
  text : ∀ t, n.rawText? = some t → n.location.Shows src t
  params : ∀ id s callee params, n = .call id s callee params →
    (params.map Param.location).Pairwise Span.Before
      ∧ ∀ p ∈ params, p.location.Within s
  parts : ∀ p ∈ n.parts, ∃ lo hi, p.1.start ≤ lo ∧ hi ≤ p.1.stop ∧ Tiles src lo p.2 hi

/-- The same as `Tiles` node by node, with all nodes inside. -/
structure Tile (src : Text) (lo : Nat) (nodes : List Node) (hi : Nat) : Prop where
  spans : Tiles src lo nodes hi
  all : ∀ m ∈ walk nodes, m.Tiled src

section

variable {src : Text} {lo mid hi : Nat} {nodes nodes' : List Node}

/-- The gap at a seam is a gap of both sides together. -/
theorem silent_gaps_append {spans spans' : List Span}
    (h : ∀ gap ∈ gaps lo spans mid, src.Silent gap.1 gap.2)
    (h' : ∀ gap ∈ gaps mid spans' hi, src.Silent gap.1 gap.2) :
    ∀ gap ∈ gaps lo (spans ++ spans') hi, src.Silent gap.1 gap.2 := by
  induction spans generalizing lo with
  | nil =>
    have hseam : src.Silent lo mid := h (lo, mid) List.mem_cons_self
    intro gap hgap
    cases spans' with
    | nil =>
      obtain rfl := List.mem_singleton.mp hgap
      exact hseam.append (h' (mid, hi) List.mem_cons_self)
    | cons s spans' =>
      rcases List.mem_cons.mp hgap with rfl | hgap
      · exact hseam.append (h' (mid, s.start) List.mem_cons_self)
      · exact h' gap (List.mem_cons_of_mem _ hgap)
  | cons s spans ih =>
    intro gap hgap
    rcases List.mem_cons.mp hgap with rfl | hgap
    · exact h (lo, s.start) List.mem_cons_self
    · exact ih (fun g hg => h g (List.mem_cons_of_mem _ hg)) gap hgap

theorem tiles_nil (h : src.Silent lo hi) : Tiles src lo [] hi where
  ordered := List.Pairwise.nil
  inside := nofun
  silent := by
    intro gap hgap
    obtain rfl := List.mem_singleton.mp hgap
    exact h

theorem Tiles.le (h : Tiles src lo nodes hi) : lo ≤ hi := by
  cases nodes with
  | nil => exact (h.silent (lo, hi) List.mem_cons_self).le
  | cons n nodes =>
    obtain ⟨hlo, hlt, hhi⟩ := h.inside n.location List.mem_cons_self
    omega

/-- Nodes that tile two neighbouring stretches tile both. -/
theorem Tiles.append (h : Tiles src lo nodes mid) (h' : Tiles src mid nodes' hi) :
    Tiles src lo (nodes ++ nodes') hi where
  ordered := by
    rw [locations, List.map_append, List.pairwise_append]
    refine ⟨h.ordered, h'.ordered, ?_⟩
    intro s hs t ht
    obtain ⟨_, hlt, hle⟩ := h.inside s hs
    obtain ⟨hle', _, _⟩ := h'.inside t ht
    constructor <;> omega
  inside := by
    intro s hs
    rw [locations, List.map_append, List.mem_append] at hs
    have hle := h.le
    have hle' := h'.le
    rcases hs with hs | hs
    · obtain ⟨h1, h2, h3⟩ := h.inside s hs
      exact ⟨h1, h2, by omega⟩
    · obtain ⟨h1, h2, h3⟩ := h'.inside s hs
      exact ⟨by omega, h2, h3⟩
  silent := by
    rw [locations, List.map_append]
    exact silent_gaps_append h.silent h'.silent

theorem tile_nil (h : src.Silent lo hi) : Tile src lo [] hi :=
  ⟨tiles_nil h, by simp [walk]⟩

theorem Tile.append (h : Tile src lo nodes mid) (h' : Tile src mid nodes' hi) :
    Tile src lo (nodes ++ nodes') hi where
  spans := h.spans.append h'.spans
  all := by
    rw [walk_append, List.forall_mem_append]
    exact ⟨h.all, h'.all⟩

end

/-- A part of a node: it stands in the place of the node, and its nodes tile a stretch of it. -/
def PartTiled (src : Text) (p : Span × List Node) : Prop :=
  ∃ lo hi, p.1.start ≤ lo ∧ hi ≤ p.1.stop ∧ Tile src lo p.2 hi

section

variable {src : Text} {lo hi : Nat} {n : Node}

/-- A node whose parts are tiled tiles its own place. -/
theorem tile_node (hstart : n.location.start = lo) (hstop : n.location.stop = hi) (hlt : lo < hi)
    (hlo : src.Boundary lo) (hhi : src.Boundary hi)
    (htext : ∀ t, n.rawText? = some t → n.location.Shows src t)
    (hparams : ∀ id s callee params, n = .call id s callee params →
      (params.map Param.location).Pairwise Span.Before ∧ ∀ p ∈ params, p.location.Within s)
    (hparts : ∀ p ∈ n.parts, PartTiled src p) : Tile src lo [n] hi where
  spans := by
    refine ⟨List.pairwise_singleton .., ?_, ?_⟩
    · intro s hs
      obtain rfl := List.mem_singleton.mp hs
      omega
    · intro gap hgap
      rw [locations, List.map_singleton, gaps, gaps, hstart, hstop] at hgap
      rcases List.mem_cons.mp hgap with rfl | hgap
      · exact Text.silent_self hlo
      · obtain rfl := List.mem_singleton.mp hgap
        exact Text.silent_self hhi
  all := by
    intro m hm
    rw [walk, walk, List.append_nil, n.walk_eq, List.mem_cons, List.mem_flatMap] at hm
    rcases hm with rfl | ⟨p, hp, hm⟩
    · refine ⟨htext, hparams, ?_⟩
      intro p hp
      obtain ⟨lo', hi', h1, h2, h⟩ := hparts p hp
      exact ⟨lo', hi', h1, h2, h.spans⟩
    · obtain ⟨_, _, _, _, h⟩ := hparts p hp
      exact h.all m hm

/-- A command or text with nothing inside. -/
theorem tile_leaf {token : Token} (h : Stand src lo [token] hi) (hloc : n.location = token.location)
    (htext : ∀ t, n.rawText? = some t → token.location.Shows src t)
    (hparams : ∀ id s callee params, n = .call id s callee params → params = [])
    (hparts : ∀ p ∈ n.parts, p = (token.location, [])) : Tile src lo [n] hi := by
  obtain ⟨rfl, htoken, hboundary, rfl⟩ := h
  refine tile_node (by rw [hloc]) (by rw [hloc]) htoken.start_lt_stop htoken.boundary hboundary
    (by rwa [hloc]) ?_ ?_
  · intro id s callee params hn
    obtain rfl := hparams id s callee params hn
    exact ⟨List.Pairwise.nil, nofun⟩
  · intro p hp
    obtain rfl := hparts p hp
    exact ⟨token.location.start, token.location.start, Nat.le_refl _,
      token.location.start_le_stop, tile_nil (Text.silent_self htoken.boundary)⟩

end

/-! ## 4. The nodes of a derivation -/

/-- The parameters stand one before the other between two offsets, each with its content in it. -/
structure ParamsTiled (src : Text) (lo : Nat) (params : List Param) (hi : Nat) : Prop where
  ordered : (params.map Param.location).Pairwise Span.Before
  inside : ∀ p ∈ params, lo ≤ p.location.start ∧ p.location.start < p.location.stop
    ∧ p.location.stop ≤ hi
  parts : ∀ p ∈ params, PartTiled src (p.location, p.value.nodes)

/-- The nodes of every branch tile a stretch between two offsets. -/
def BranchesTiled (src : Text) (lo : Nat) (branches : List Branch) (hi : Nat) : Prop :=
  ∀ b ∈ branches, ∃ lo' hi', lo ≤ lo' ∧ hi' ≤ hi ∧ Tile src lo' b.nodes hi'

section

variable {src : Text} {lo lo' hi hi' : Nat} {n : Node} {opener closer : Token}
  {tokens : List Token}

theorem paramsTiled_nil : ParamsTiled src lo [] hi := ⟨List.Pairwise.nil, nofun, nofun⟩

/-- A parameter before others. -/
theorem ParamsTiled.cons {p : Param} {params : List Param} {mid : Nat} (hle : mid ≤ hi)
    (h : lo ≤ p.location.start ∧ p.location.start < p.location.stop ∧ p.location.stop ≤ mid)
    (hp : PartTiled src (p.location, p.value.nodes)) (hps : ParamsTiled src mid params hi) :
    ParamsTiled src lo (p :: params) hi where
  ordered := by
    rw [List.map_cons, List.pairwise_cons]
    refine ⟨?_, hps.ordered⟩
    intro s hs
    obtain ⟨q, hq, rfl⟩ := List.mem_map.mp hs
    obtain ⟨hq1, _, _⟩ := hps.inside q hq
    constructor <;> omega
  inside := by
    intro q hq
    rcases List.mem_cons.mp hq with rfl | hq
    · obtain ⟨h1, h2, h3⟩ := h
      exact ⟨h1, h2, by omega⟩
    · obtain ⟨h1, h2, h3⟩ := hps.inside q hq
      exact ⟨by omega, h2, by omega⟩
  parts := List.forall_mem_cons.mpr ⟨hp, hps.parts⟩

theorem ParamsTiled.mono {params : List Param} (h : ParamsTiled src lo params hi) (hhi : hi ≤ hi') :
    ParamsTiled src lo params hi' where
  ordered := h.ordered
  inside := by
    intro p hp
    obtain ⟨h1, h2, h3⟩ := h.inside p hp
    exact ⟨h1, h2, h3.trans hhi⟩
  parts := h.parts

theorem BranchesTiled.mono {branches : List Branch} (h : BranchesTiled src lo branches hi)
    (hlo : lo' ≤ lo) (hhi : hi ≤ hi') : BranchesTiled src lo' branches hi' := by
  intro b hb
  obtain ⟨i, j, h1, h2, htile⟩ := h b hb
  exact ⟨i, j, hlo.trans h1, h2.trans hhi, htile⟩

theorem branchesTiled_cons {b : Branch} {branches : List Branch} (hlo : lo ≤ lo') (hhi : hi' ≤ hi)
    (hb : Tile src lo' b.nodes hi') (h : BranchesTiled src lo branches hi) :
    BranchesTiled src lo (b :: branches) hi :=
  List.forall_mem_cons.mpr ⟨⟨lo', hi', hlo, hhi, hb⟩, h⟩

theorem BranchesTiled.append {branches branches' : List Branch}
    (h : BranchesTiled src lo branches hi) (h' : BranchesTiled src lo branches' hi) :
    BranchesTiled src lo (branches ++ branches') hi := List.forall_mem_append.mpr ⟨h, h'⟩

/-- A command that leaves nothing in the tree. -/
theorem tile_silent {c : Command} {s : Span} (h : Stand src lo [.command c s] hi)
    (hc : c.IsSilent) : Tile src lo [] hi := by
  obtain ⟨rfl, ⟨inner, hspells, hreads⟩, _, rfl⟩ := h
  refine tile_nil ⟨braced inner, hreads, ?_⟩
  have := Silence.cons hspells hc Silence.nil
  rwa [List.append_nil] at this

/-- Where a construct stands. -/
theorem location_construct (h : Stand src lo (opener :: (tokens ++ [closer])) hi) :
    (opener.location.union closer.location).start = lo
      ∧ (opener.location.union closer.location).stop = hi
      ∧ lo < opener.location.stop ∧ opener.location.stop ≤ closer.location.start
      ∧ closer.location.start < hi := by
  obtain ⟨rfl, hopener, hrest⟩ := h
  obtain ⟨mid, htokens, rfl, hcloser, _, rfl⟩ := stand_append.mp hrest
  obtain ⟨hstart, hstop⟩ := Span.union_eq_of_le htokens.le
  exact ⟨hstart, hstop, hopener.start_lt_stop, htokens.le, hcloser.start_lt_stop⟩

/-- **A construct between its commands**, whose parts are tiled. -/
theorem tile_construct (h : Stand src lo (opener :: (tokens ++ [closer])) hi)
    (hloc : n.location = opener.location.union closer.location) (hraw : n.rawText? = none)
    (hparams : ∀ id s callee params, n = .call id s callee params →
      ParamsTiled src opener.location.stop params closer.location.start)
    (hparts : ∀ p ∈ n.parts, PartTiled src p) : Tile src lo [n] hi := by
  obtain ⟨hstart, hstop, hopener, hle, hcloser⟩ := location_construct h
  rw [← hloc] at hstart hstop
  have hboundary : src.Boundary hi := by
    obtain ⟨_, _, hrest⟩ := h
    obtain ⟨_, _, _, _, hb, rfl⟩ := stand_append.mp hrest
    exact hb
  refine tile_node hstart hstop (by omega) h.boundary hboundary ?_ ?_ hparts
  · rw [hraw]
    nofun
  · rintro id s callee params rfl
    have htiled := hparams id s callee params rfl
    refine ⟨htiled.ordered, ?_⟩
    intro p hp
    obtain ⟨h1, _, h3⟩ := htiled.inside p hp
    simp only [Node.location] at hstart hstop
    constructor <;> omega

/-- The branches of control flow between its commands. -/
theorem tile_flow {id : NodeId} {s s' : Span} {head : FlowHead} {branches : List Branch}
    {c c' : Command} (h : Stand src lo (.command c s :: (tokens ++ [.command c' s'])) hi)
    (hb : BranchesTiled src s.stop branches s'.start) :
    Tile src lo [.flow ⟨id, s.union s', head, branches⟩] hi := by
  obtain ⟨hstart, hstop, hopener, hle, hcloser⟩ := location_construct h
  simp only [Token.location] at hstart hstop hopener hle hcloser
  refine tile_construct h rfl rfl nofun ?_
  intro p hp
  obtain ⟨b, hmem, rfl⟩ := List.mem_map.mp hp
  obtain ⟨i, j, h1, h2, htile⟩ := hb b hmem
  refine ⟨i, j, ?_, ?_, htile⟩
  · rw [hstart]
    omega
  · rw [hstop]
    omega

end

mutual

/-- **The nodes of an item tile its place.** -/
theorem Item.tile {src : Text} : ∀ (item : Item) (ids : IdSource) {lo hi : Nat},
    Stand src lo item.tokens hi → Tile src lo (item.nodes ids).1 hi
  | .text t location, ids, lo, hi, h => by
    rw [Item.tokens] at h
    rw [Item.nodes]
    refine tile_leaf h rfl ?_ nofun nofun
    rintro _ ⟨⟩
    exact .inl h.2.1.2
  | .special t location, ids, lo, hi, h => by
    rw [Item.tokens] at h
    rw [Item.nodes]
    split
    · next ht =>
      exact tile_silent h (.inl (by rw [ht]))
    · next ht =>
      refine tile_leaf h rfl ?_ nofun nofun
      rintro _ ⟨⟩
      obtain ⟨_, ⟨inner, hspells, hreads⟩, _⟩ := h
      rcases Command.of_read_special hspells.read with hnil | ⟨c, hc, _⟩
      · exact absurd hnil ht
      · exact .inr ⟨c, inner, hc, hspells, hreads⟩
  | .declare name type location, ids, lo, hi, h => by
    rw [Item.tokens] at h
    rw [Item.nodes]
    exact tile_silent h (.inr ⟨name, type, rfl⟩)
  | .print expr location, ids, lo, hi, h => by
    rw [Item.tokens] at h
    rw [Item.nodes]
    exact tile_leaf h rfl nofun nofun nofun
  | .call callee location, ids, lo, hi, h => by
    rw [Item.tokens] at h
    rw [Item.nodes]
    refine tile_leaf h rfl nofun ?_ nofun
    rintro _ _ _ _ ⟨⟩
    rfl
  | .bind var expr kind location, ids, lo, hi, h => by
    rw [Item.tokens] at h
    rw [Item.nodes]
    refine tile_leaf h rfl nofun nofun ?_
    intro p hp
    obtain rfl := List.mem_singleton.mp hp
    rfl
  | .callWith callee opener args blanks closer, ids, lo, hi, h => by
    rw [Item.tokens] at h
    simp only [Item.nodes]
    obtain ⟨_, _, _, hinner⟩ := stand_construct h
    obtain ⟨mid, hargs, hblanks⟩ := stand_append.mp hinner
    have hparams := (tiled_paramsOf args ids hargs).mono hblanks.le
    refine tile_construct h rfl rfl ?_ ?_
    · rintro _ _ _ _ ⟨⟩
      exact hparams
    · intro p hp
      obtain ⟨param, hparam, rfl⟩ := List.mem_map.mp hp
      exact hparams.parts param hparam
  | .bindBody var kind opener body closer, ids, lo, hi, h => by
    rw [Item.tokens] at h
    simp only [Item.nodes]
    obtain ⟨hstart, hstop, hopener, hle, hcloser⟩ := location_construct h
    obtain ⟨_, _, _, hinner⟩ := stand_construct h
    simp only [Token.location] at hstart hstop hopener hle hcloser hinner
    refine tile_construct h rfl rfl nofun ?_
    intro p hp
    obtain rfl := List.mem_singleton.mp hp
    refine ⟨opener.stop, closer.start, ?_, ?_, tile_nodesOf body ids hinner⟩
    · rw [hstart]
      omega
    · rw [hstop]
      omega
  | .ifThen cond opener body elseIfs otherwise closer, ids, lo, hi, h => by
    rw [Item.tokens] at h
    simp only [Item.nodes]
    obtain ⟨_, _, _, hinner⟩ := stand_construct h
    obtain ⟨mid₂, hfirst, hlast⟩ := stand_append.mp hinner
    obtain ⟨mid₁, hbody, hclauses⟩ := stand_append.mp hfirst
    refine tile_flow h ?_
    rw [List.cons_append]
    refine branchesTiled_cons (Nat.le_refl _) (hclauses.le.trans hlast.le)
      (tile_nodesOf body ids hbody) (.append ?_ ?_)
    · exact (tiled_branchesOf elseIfs _ hclauses).mono hbody.le hlast.le
    · exact (tiled_lastBranchOf otherwise _ hlast).mono hfirst.le (Nat.le_refl _)
  | .switch expr opener blanks cases otherwise closer, ids, lo, hi, h => by
    rw [Item.tokens] at h
    simp only [Item.nodes]
    obtain ⟨_, _, _, hinner⟩ := stand_construct h
    obtain ⟨mid₂, hfirst, hlast⟩ := stand_append.mp hinner
    obtain ⟨mid₁, hblanks, hclauses⟩ := stand_append.mp hfirst
    refine tile_flow h (.append ?_ ?_)
    · exact (tiled_branchesOf cases _ hclauses).mono hblanks.le hlast.le
    · exact (tiled_lastBranchOf otherwise _ hlast).mono hfirst.le (Nat.le_refl _)
  | .forEach var expr opener body ifEmpty closer, ids, lo, hi, h => by
    rw [Item.tokens] at h
    simp only [Item.nodes]
    obtain ⟨_, _, _, hinner⟩ := stand_construct h
    obtain ⟨mid, hbody, hlast⟩ := stand_append.mp hinner
    refine tile_flow h ?_
    exact branchesTiled_cons (Nat.le_refl _) hlast.le (tile_nodesOf body ids hbody)
      ((tiled_lastBranchOf ifEmpty _ hlast).mono hbody.le (Nat.le_refl _))

/-- So do the nodes of a body. -/
theorem tile_nodesOf {src : Text} : ∀ (items : List Item) (ids : IdSource) {lo hi : Nat},
    Stand src lo (tokensOf items) hi → Tile src lo (nodesOf ids items).1 hi
  | [], ids, lo, hi, h => by
    obtain ⟨hboundary, rfl⟩ := h
    rw [nodesOf]
    exact tile_nil (Text.silent_self hboundary)
  | item :: items, ids, lo, hi, h => by
    rw [tokensOf] at h
    obtain ⟨mid, hitem, hitems⟩ := stand_append.mp h
    rw [nodesOf]
    exact (item.tile ids hitem).append (tile_nodesOf items _ hitems)

/-- The parameters of a call. -/
theorem tiled_paramsOf {src : Text} : ∀ (args : List Arg) (ids : IdSource) {lo hi : Nat},
    Stand src lo (tokensOfArgs args) hi → ParamsTiled src lo (paramsOf ids args).1 hi
  | [], ids, lo, hi, h => by
    rw [paramsOf]
    exact paramsTiled_nil
  | .expr blanks name expr kind location :: args, ids, lo, hi, h => by
    rw [tokensOfArgs, Arg.tokens] at h
    obtain ⟨mid₂, hfirst, hargs⟩ := stand_append.mp h
    obtain ⟨mid₁, hblanks, rfl, htoken, hboundary, rfl⟩ := stand_append.mp hfirst
    have hlt := htoken.start_lt_stop
    have hle := hblanks.le
    simp only [Token.location] at hlt hle hargs
    simp only [paramsOf, Arg.param]
    refine .cons hargs.le ⟨hle, hlt, Nat.le_refl _⟩ ?_ (tiled_paramsOf args _ hargs)
    exact ⟨location.start, location.start, Nat.le_refl _, location.start_le_stop,
      tile_nil (Text.silent_self htoken.boundary)⟩
  | .content blanks name kind opener body closer :: args, ids, lo, hi, h => by
    rw [tokensOfArgs, Arg.tokens] at h
    obtain ⟨mid₂, hfirst, hargs⟩ := stand_append.mp h
    obtain ⟨mid₁, hblanks, hconstruct⟩ := stand_append.mp hfirst
    obtain ⟨hstart, hstop, hopener, hle, hcloser⟩ := location_construct hconstruct
    obtain ⟨_, _, _, hinner⟩ := stand_construct hconstruct
    have hle' := hblanks.le
    simp only [Token.location] at hstart hstop hopener hle hcloser hinner
    simp only [paramsOf, Arg.param]
    refine .cons hargs.le ⟨?_, ?_, ?_⟩ ?_ (tiled_paramsOf args _ hargs)
    · rw [hstart]
      exact hle'
    · rw [hstart, hstop]
      omega
    · rw [hstop]
    · refine ⟨opener.stop, closer.start, ?_, ?_, tile_nodesOf body _ hinner⟩
      · rw [hstart]
        omega
      · rw [hstop]
        omega

/-- The branches of clauses. -/
theorem tiled_branchesOf {src : Text} {command : Text → Command} :
    ∀ (clauses : List Clause) (ids : IdSource) {lo hi : Nat},
    Stand src lo (tokensOfClauses command clauses) hi →
    BranchesTiled src lo (branchesOf ids clauses).1 hi
  | [], ids, lo, hi, _ => by
    rw [branchesOf]
    nofun
  | ⟨expr, opener, body⟩ :: clauses, ids, lo, hi, h => by
    rw [tokensOfClauses, Clause.tokens] at h
    obtain ⟨mid, ⟨rfl, htoken, hbody⟩, hclauses⟩ := stand_append.mp h
    have hlt := htoken.start_lt_stop
    simp only [Token.location] at hlt hbody
    simp only [branchesOf, Clause.branch]
    refine branchesTiled_cons hlt.le hclauses.le (tile_nodesOf body ids hbody) ?_
    exact (tiled_branchesOf clauses _ hclauses).mono (hlt.le.trans hbody.le) (Nat.le_refl _)

/-- The last branch. -/
theorem tiled_lastBranchOf {src : Text} {command : Command} :
    ∀ (otherwise : Option Fallback) (ids : IdSource) {lo hi : Nat},
    Stand src lo (tokensOfFallback command otherwise) hi →
    BranchesTiled src lo (lastBranchOf ids otherwise).1 hi
  | none, ids, lo, hi, _ => by
    rw [lastBranchOf]
    nofun
  | some ⟨opener, body⟩, ids, lo, hi, h => by
    rw [tokensOfFallback, Fallback.tokens] at h
    obtain ⟨rfl, htoken, hbody⟩ := h
    simp only [lastBranchOf, Fallback.branch]
    exact branchesTiled_cons htoken.start_lt_stop.le (Nat.le_refl _) (tile_nodesOf body ids hbody)
      nofun

end

/-! ## 5. Templates -/

/-- **The nodes of a template tile its source.**  The body tiles the whole source and the nodes of
every branch and every content a stretch of their owner: they stand one before the other, and what is
left of the source are `{nil}` and `{@param}` commands.  Raw text is the source in its place, or the
character of the command there, and the parameters of a call stand one before the other in it. -/
theorem Template.read_tiles {src : Text} {kind : ContentKind} {ids ids' : IdSource} {t : Template}
    (h : Template.read src kind ids = .ok (t, ids')) :
    t.location.start = 0 ∧ t.location.stop = src.size ∧ Tiles src 0 t.nodes src.size
      ∧ ∀ n ∈ walk t.nodes, n.Tiled src := by
  obtain ⟨items, hcut, rfl, rfl⟩ := Template.read_eq_ok.mp h
  have htile := tile_nodesOf items ids (hcut.stand (List.nil_append src).symm rfl)
  exact ⟨rfl, rfl, htile.spans, htile.all⟩

/-- Commands without a node stand between the nodes of a body and at the end of a branch. -/
theorem Template.read_tiles_silentCommands :
    ∃ (src : Text) (t : Template) (ids' : IdSource),
      src = "a\x7bnil\x7d\x7b@param p: int\x7d\x7bif $c\x7dy\x7bnil\x7d\x7b/if\x7d\x7bsp\x7d".toList
      ∧ Template.read src .html (.startingAt 1) = .ok (t, ids') ∧ t.nodes.length = 3
      ∧ t.location.start = 0 ∧ t.location.stop = src.size ∧ Tiles src 0 t.nodes src.size
      ∧ ∀ n ∈ walk t.nodes, n.Tiled src := by
  obtain ⟨⟨t, ids'⟩, hread, hcheck⟩ := exists_ok_of_any
    (r := Template.read "a\x7bnil\x7d\x7b@param p: int\x7d\x7bif $c\x7dy\x7bnil\x7d\x7b/if\x7d\x7bsp\x7d".toList
      .html (.startingAt 1)) (p := fun r => r.1.nodes.length == 3) (by decide +kernel)
  exact ⟨_, t, ids', rfl, hread, beq_iff_eq.mp hcheck, Template.read_tiles hread⟩

end TemplateMarkup
