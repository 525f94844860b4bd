/-
# How a source is laid out in its tree

The tokens of a source come one after the other, and so do the nodes of a body: each ends before the
next begins, and the body of a construct stands between its commands.  A text carries its characters
(`Span.Carries`): each of them has its own place in the source, also where a command stands for it.

`Template.laidOut` says this of every template that is read, by the grammar of its body.
-/
import TemplateMarkup.Proofs.Template.Accepted
import TemplateMarkup.Proofs.Template.Respelled
import TemplateMarkup.Proofs.Tree.Seated

namespace TemplateMarkup

open Span (Between between_append)

/-! ## 1. Tokens -/

/-- Each character of the text has its place in the span, at a character of the source. -/
def Span.Carries (src : Text) (s : Span) (t : Text) : Prop :=
  ∀ before after, t = before ++ after → src.Boundary (s.locate t.size before.size)

/-- The span of text in the source carries it. -/
theorem Span.carries_self {before t after : Text} {s : Span} (hstart : s.start = before.size)
    (hstop : s.stop = before.size + t.size) : s.Carries (before ++ (t ++ after)) t := by
  rintro u v rfl
  have hlen : s.length = (u ++ v).size := by
    rw [Span.length, hstart, hstop, Nat.add_sub_cancel_left]
  rw [Span.locate, if_pos hlen.symm, hstart]
  exact ⟨before ++ u, v ++ after, by simp, by simp⟩

theorem size_braced (inner : Text) : (braced inner).size = inner.size + 2 := by
  have hopen : '{'.utf8Size = 1 := by decide
  have hclose : '}'.utf8Size = 1 := by decide
  simp only [braced, Text.size_append, Text.size_cons, Text.size_nil, hopen, hclose]
  omega

/-- The span of a command carries a character of one byte, in the place of the brace. -/
theorem Span.carries_special {before inner after t : Text} {s : Span}
    (hstart : s.start = before.size) (hstop : s.start + 2 ≤ s.stop)
    (ht : t = [] ∨ ∃ c : Char, t = [c] ∧ c.utf8Size = 1) :
    s.Carries (before ++ (braced inner ++ after)) t := by
  have hopen : '{'.utf8Size = 1 := by decide
  have hboundary : ∀ i ≤ 1, (before ++ (braced inner ++ after)).Boundary (before.size + i) := by
    intro i hi
    rcases Nat.le_one_iff_eq_zero_or_eq_one.mp hi with rfl | rfl
    · exact Text.boundary_append ..
    · exact ⟨before ++ ['{'], inner ++ ['}'] ++ after, by simp [braced], by simp [hopen]⟩
  have hsize : t.size ≤ 1 := by
    rcases ht with rfl | ⟨c, rfl, hc⟩
    · exact Nat.zero_le _
    · simp [hc]
  rintro u v rfl
  rw [Text.size_append] at hsize
  have hlen : (u ++ v).size ≠ s.length := by
    rw [Span.length, Text.size_append]
    omega
  rw [Span.locate, if_neg hlen, Nat.min_eq_left (by omega), hstart]
  exact hboundary _ (by omega)

/-- A special character stands for at most one character, of one byte. -/
theorem Command.of_read_special {inner t : Text} (h : Command.read inner = .ok (.special t)) :
    t = [] ∨ ∃ c : Char, t = [c] ∧ c.utf8Size = 1 := by
  rw [Command.read] at h
  dsimp only at h
  split at h
  · next hs =>
    cases h
    unfold special? at hs
    repeat' split at hs
    all_goals cases hs
    all_goals first | exact .inl rfl | exact .inr ⟨_, rfl, by decide⟩
  split at h
  · cases h
  · exact (madeOf_ofWord h).elim

namespace Token

/-- The place of a token. -/
def location : Token → Span
  | text _ s | command _ s => s

/-- The text that a token stands for. -/
def text? : Token → Option Text
  | text t _ | command (.special t) _ => some t
  | command .. => none

/-- The token stands where whole characters of the source stand, and carries its text; only a
command may stand for none. -/
structure Sound (src : Text) (token : Token) : Prop where
  location : token.location.Sound src
  nonempty : ∀ t s, token = text t s → t ≠ []
  carries : ∀ t, token.text? = some t → token.location.Carries src t

end Token

/-- Every token is sound. -/
def AllSound (src : Text) (tokens : List Token) : Prop := ∀ token ∈ tokens, token.Sound src

/-- **The tokens of a source stand one after the other, each where its characters are.** -/
theorem CutsInto.laidOut {pos : Nat} {rest : Text} {tokens : List Token}
    (h : CutsInto pos rest tokens) : ∀ {src before : Text}, src = before ++ rest →
    before.size = pos → AllSound src tokens ∧ Between pos (tokens.map Token.location) src.size := by
  induction h with
  | nil =>
    rintro src before rfl rfl
    refine ⟨?_, by simp [Between]⟩
    intro token hmem
    exact absurd hmem List.not_mem_nil
  | @text pos t rest tokens location hstart hstop hne _ _ _ ih =>
    rintro src before rfl rfl
    have hsrc : before ++ (t ++ rest) = (before ++ t) ++ rest := by simp
    obtain ⟨hall, hbetween⟩ := ih hsrc (by rw [hstop, Text.size_append])
    refine ⟨List.forall_mem_cons.mpr ⟨⟨?_, ?_, ?_⟩, hall⟩, Nat.le_of_eq hstart.symm, hbetween⟩
    · exact Span.sound_of_boundary ⟨before, t ++ rest, rfl, hstart.symm⟩
        ⟨before ++ t, rest, hsrc, by rw [Token.location, hstop, Text.size_append]⟩
    · intro _ _ heq
      cases heq
      exact hne
    · intro _ heq
      cases heq
      exact Span.carries_self hstart hstop
  | @command pos inner rest command tokens location hstart hstop _ hread _ ih =>
    rintro src before rfl rfl
    have hsrc : before ++ (TemplateMarkup.braced inner ++ rest)
        = (before ++ TemplateMarkup.braced inner) ++ rest := by simp
    have hstop' : (before ++ TemplateMarkup.braced inner).size = location.stop := by
      rw [hstop, Text.size_append, size_braced, Nat.add_assoc]
    obtain ⟨hall, hbetween⟩ := ih hsrc hstop'
    refine ⟨List.forall_mem_cons.mpr ⟨⟨?_, ?_, ?_⟩, hall⟩, Nat.le_of_eq hstart.symm, hbetween⟩
    · exact Span.sound_of_boundary ⟨before, _, rfl, hstart.symm⟩ ⟨_, rest, hsrc, hstop'⟩
    · intro _ _ heq
      cases heq
    · have hlen : location.start + 2 ≤ location.stop := by omega
      intro t ht
      cases command <;> cases ht
      exact Span.carries_special hstart hlen (Command.of_read_special hread)

/-! ## 2. Nodes -/

/-- The node stands as it is read from a source: it is of the source, whole characters stand in its
place, and the nodes of a part one after the other between the ends of the part. -/
structure Node.LaidOut (src : Text) (n : Node) : Prop where
  written : n.isWritten = true
  sound : n.location.Sound src
  carries : ∀ t, n.rawText? = some t → t ≠ [] ∧ n.location.Carries src t
  parts : ∀ p ∈ n.parts, p.1.Sound src ∧ p.1.Within n.location
    ∧ Between p.1.start (locations p.2) p.1.stop

/-- So do all nodes in the nodes. -/
def AllLaidOut (src : Text) (nodes : List Node) : Prop := ∀ m ∈ walk nodes, m.LaidOut src

/-- The nodes stand one after the other between two offsets, and so do those in them. -/
structure LaidBetween (src : Text) (lo : Nat) (nodes : List Node) (hi : Nat) : Prop where
  between : Between lo (locations nodes) hi
  all : AllLaidOut src nodes

section

variable {src : Text} {lo lo' hi hi' : Nat} {n : Node} {nodes nodes' : List Node}

theorem LaidBetween.mono (h : LaidBetween src lo nodes hi) (hlo : lo' ≤ lo) (hhi : hi ≤ hi') :
    LaidBetween src lo' nodes hi' := ⟨h.between.mono hlo hhi, h.all⟩

theorem laidBetween_nil (h : lo ≤ hi) : LaidBetween src lo [] hi :=
  ⟨h, by simp [AllLaidOut, walk]⟩

theorem LaidBetween.append {mid : Nat} (h : LaidBetween src lo nodes mid)
    (h' : LaidBetween src mid nodes' hi) : LaidBetween src lo (nodes ++ nodes') hi where
  between := by
    rw [locations, List.map_append]
    exact between_append.mpr ⟨mid, h.between, h'.between⟩
  all := by
    rw [AllLaidOut, walk_append, List.forall_mem_append]
    exact ⟨h.all, h'.all⟩

/-- A node stands by itself. -/
theorem laidBetween_one (hw : n.isWritten = true) (hs : n.location.Sound src)
    (hc : ∀ t, n.rawText? = some t → t ≠ [] ∧ n.location.Carries src t)
    (hlo : lo ≤ n.location.start) (hhi : n.location.stop ≤ hi)
    (hp : ∀ p ∈ n.parts, p.1.Sound src ∧ p.1.Within n.location
      ∧ LaidBetween src p.1.start p.2 p.1.stop) : LaidBetween src lo [n] hi where
  between := ⟨hlo, hhi⟩
  all := by
    intro m hm
    rw [walk, walk, List.append_nil, n.walk_eq, List.mem_cons, List.mem_flatMap] at hm
    rcases hm with rfl | ⟨p, hp', hm⟩
    · exact ⟨hw, hs, hc, fun p hp' => ⟨(hp p hp').1, (hp p hp').2.1, (hp p hp').2.2.between⟩⟩
    · exact (hp p hp').2.2.all m hm

/-- What stands in a part of a node. -/
theorem Node.laidBetween_of_part (h : ∀ m ∈ n.walk, m.LaidOut src) {p : Span × List Node}
    (hp : p ∈ n.parts) :
    p.1.Sound src ∧ p.1.Within n.location ∧ LaidBetween src p.1.start p.2 p.1.stop := by
  obtain ⟨hsound, hwithin, hbetween⟩ := (h n n.mem_walk).parts p hp
  refine ⟨hsound, hwithin, hbetween, fun m hm => h m ?_⟩
  rw [n.walk_eq]
  exact List.mem_cons_of_mem _ (List.mem_flatMap.mpr ⟨p, hp, hm⟩)

theorem laidBetween_cons (h : LaidBetween src lo (n :: nodes) hi) :
    lo ≤ n.location.start ∧ (∀ m ∈ n.walk, m.LaidOut src)
      ∧ LaidBetween src n.location.stop nodes hi := by
  have hall := h.all
  rw [AllLaidOut, walk, List.forall_mem_append] at hall
  exact ⟨h.between.1, hall.1, h.between.2, hall.2⟩

/-- A node of the source stands where it may. -/
theorem Node.seated_of_laidOut {clean : Prop} (h : ∀ m ∈ n.walk, m.LaidOut src) :
    n.Seated src clean where
  sound := (h n n.mem_walk).sound
  parts := by
    intro p hp
    obtain ⟨hsound, hwithin, hbody⟩ := laidBetween_of_part h hp
    refine ⟨hsound.lies (fun _ => hwithin.1) fun _ => hwithin.2, fun m hm => ?_⟩
    obtain ⟨hlo, hhi⟩ := hbody.between.of_mem (List.mem_map_of_mem hm)
    exact (hbody.all m (subset_walk _ hm)).sound.lies (fun _ => hlo) fun _ => hhi

/-- Nodes of the source stand where they may. -/
theorem LaidBetween.seatedIn {clean : Prop} (h : LaidBetween src lo nodes hi) :
    SeatedIn src clean lo hi nodes := by
  intro n hn
  obtain ⟨hlo, hhi⟩ := h.between.of_mem (List.mem_map_of_mem hn)
  have hwalk : n.walk ⊆ walk nodes := walkClosed_nodes nodes n (subset_walk _ hn)
  refine ⟨(h.all n (subset_walk _ hn)).sound.lies (fun _ => hlo) fun _ => hhi, fun m hm => ?_⟩
  exact Node.seated_of_laidOut fun k hk => h.all k (hwalk (n.walkClosed m hm hk))

end

/-! ## 3. The nodes of a derivation -/

theorem allSound_append {src : Text} {l l' : List Token} :
    AllSound src (l ++ l') ↔ AllSound src l ∧ AllSound src l' := List.forall_mem_append

theorem allSound_cons {src : Text} {token : Token} {l : List Token} :
    AllSound src (token :: l) ↔ token.Sound src ∧ AllSound src l := List.forall_mem_cons

/-- From the first command of a construct to the last. -/
theorem Span.union_eq_of_le {s t : Span} (h : s.stop ≤ t.start) :
    (s.union t).start = s.start ∧ (s.union t).stop = t.stop := by
  have h1 := s.start_le_stop
  have h2 := t.start_le_stop
  exact ⟨Nat.min_eq_left (by omega), Nat.max_eq_right (by omega)⟩

theorem Span.Sound.union {src : Text} {s t : Span} (hs : s.Sound src) (ht : t.Sound src)
    (h : s.stop ≤ t.start) : (s.union t).Sound src := by
  obtain ⟨hstart, hstop⟩ := Span.union_eq_of_le h
  exact Span.sound_of_boundary (hstart ▸ hs.start_boundary) (hstop ▸ ht.stop_boundary)

/-- The parameters stand between two offsets. -/
def ParamsBetween (src : Text) (lo : Nat) (params : List Param) (hi : Nat) : Prop :=
  ∀ p ∈ params, p.location.Sound src ∧ lo ≤ p.location.start ∧ p.location.stop ≤ hi
    ∧ LaidBetween src p.location.start p.value.nodes p.location.stop

/-- The nodes of every branch stand between two offsets. -/
def BranchesBetween (src : Text) (lo : Nat) (branches : List Branch) (hi : Nat) : Prop :=
  ∀ b ∈ branches, LaidBetween src lo b.nodes hi

section

variable {src : Text} {lo hi : Nat}

/-- A command or text with nothing inside. -/
theorem laidBetween_leaf {n : Node} {token : Token} (hs : token.Sound src)
    (hb : Between lo [token.location] hi) (hloc : n.location = token.location)
    (hw : n.isWritten = true)
    (hc : ∀ t, n.rawText? = some t → t ≠ [] ∧ token.location.Carries src t)
    (hp : ∀ p ∈ n.parts, p.2 = [] ∧ p.1 = token.location) : LaidBetween src lo [n] hi := by
  refine laidBetween_one hw (hloc ▸ hs.location) (hloc ▸ hc) (hloc ▸ hb.1) (hloc ▸ hb.2) ?_
  intro p hp'
  obtain ⟨hnil, hself⟩ := hp p hp'
  rw [hnil, hself, hloc]
  exact ⟨hs.location, ⟨Nat.le_refl _, Nat.le_refl _⟩,
    laidBetween_nil token.location.start_le_stop⟩

/-- A construct between its commands. -/
theorem laidBetween_construct {n : Node} {opener closer : Span} (ho : opener.Sound src)
    (hc : closer.Sound src) (hlo : lo ≤ opener.start) (hle : opener.stop ≤ closer.start)
    (hhi : closer.stop ≤ hi) (hloc : n.location = opener.union closer)
    (hw : n.isWritten = true) (hraw : n.rawText? = none)
    (hp : ∀ p ∈ n.parts, p.1 = n.location ∧ LaidBetween src opener.stop p.2 closer.start
      ∨ p.1.Sound src ∧ opener.stop ≤ p.1.start ∧ p.1.stop ≤ closer.start
        ∧ LaidBetween src p.1.start p.2 p.1.stop) : LaidBetween src lo [n] hi := by
  obtain ⟨hstart, hstop⟩ := Span.union_eq_of_le hle
  have hs : n.location.Sound src := hloc ▸ ho.union hc hle
  rw [← hloc] at hstart hstop
  have hopener := opener.start_le_stop
  have hcloser := closer.start_le_stop
  refine laidBetween_one hw hs (by rw [hraw]; nofun) (by omega) (by omega) fun p hp' => ?_
  rcases hp p hp' with ⟨hself, hbody⟩ | ⟨hps, hpstart, hpstop, hbody⟩
  · rw [hself]
    exact ⟨hs, ⟨Nat.le_refl _, Nat.le_refl _⟩, hbody.mono (by omega) (by omega)⟩
  · exact ⟨hps, ⟨by omega, by omega⟩, hbody⟩

end

mutual

/-- **The nodes of an item stand where its tokens do.** -/
theorem Item.laidBetween {src : Text} : ∀ (item : Item) (ids : IdSource) {lo hi : Nat},
    AllSound src item.tokens → Between lo (item.tokens.map Token.location) hi →
    LaidBetween src lo (item.nodes ids).1 hi
  | .text t location, ids, lo, hi, hs, hb => by
    simp only [Item.tokens, Item.nodes, List.map_cons, List.map_nil] at hs hb ⊢
    have ht := hs _ List.mem_cons_self
    refine laidBetween_leaf ht hb rfl rfl ?_ nofun
    rintro _ ⟨⟩
    exact ⟨ht.nonempty _ _ rfl, ht.carries _ rfl⟩
  | .special t location, ids, lo, hi, hs, hb => by
    simp only [Item.tokens, Item.nodes, List.map_cons, List.map_nil] at hs hb ⊢
    have ht := hs _ List.mem_cons_self
    split
    · exact laidBetween_nil hb.le
    · next hne =>
      refine laidBetween_leaf ht hb rfl rfl ?_ nofun
      rintro _ ⟨⟩
      exact ⟨hne, ht.carries _ rfl⟩
  | .declare name type location, ids, lo, hi, hs, hb => by
    rw [Item.nodes]
    exact laidBetween_nil hb.le
  | .print expr location, ids, lo, hi, hs, hb => by
    simp only [Item.tokens, Item.nodes, List.map_cons, List.map_nil] at hs hb ⊢
    exact laidBetween_leaf (hs _ List.mem_cons_self) hb rfl rfl nofun nofun
  | .call callee location, ids, lo, hi, hs, hb => by
    simp only [Item.tokens, Item.nodes, List.map_cons, List.map_nil] at hs hb ⊢
    exact laidBetween_leaf (hs _ List.mem_cons_self) hb rfl rfl nofun nofun
  | .bind var expr kind location, ids, lo, hi, hs, hb => by
    simp only [Item.tokens, Item.nodes, List.map_cons, List.map_nil] at hs hb ⊢
    refine laidBetween_leaf (hs _ List.mem_cons_self) hb rfl rfl nofun ?_
    simp [Node.parts, Value.nodes, Token.location]
  | .callWith callee opener args blanks closer, ids, lo, hi, hs, hb => by
    simp only [Item.tokens, allSound_cons, allSound_append, List.map_cons, List.map_append,
      List.map_nil, Between, between_append] at hs hb
    obtain ⟨ho, ⟨hargs, -⟩, hc, -⟩ := hs
    obtain ⟨hlo, after, ⟨mid, hbargs, hbblanks⟩, hle, hhi⟩ := hb
    have hmid : mid ≤ closer.start := hbblanks.le.trans hle
    simp only [Item.nodes]
    refine laidBetween_construct ho.location hc.location hlo (hbargs.le.trans hmid) hhi rfl rfl rfl
      fun p hp => .inr ?_
    obtain ⟨param, hparam, rfl⟩ := List.mem_map.mp hp
    obtain ⟨h1, h2, h3, h4⟩ := laidBetween_paramsOf args ids hargs hbargs param hparam
    exact ⟨h1, h2, h3.trans hmid, h4⟩
  | .bindBody var kind opener body closer, ids, lo, hi, hs, hb => by
    simp only [Item.tokens, allSound_cons, allSound_append, List.map_cons, List.map_append,
      List.map_nil, Between, between_append] at hs hb
    obtain ⟨ho, hbody, hc, -⟩ := hs
    obtain ⟨hlo, mid, hbbody, hle, hhi⟩ := hb
    simp only [Item.nodes]
    refine laidBetween_construct ho.location hc.location hlo (hbbody.le.trans hle) hhi rfl rfl rfl
      fun p hp => .inl ?_
    obtain rfl := List.mem_singleton.mp hp
    exact ⟨rfl, (laidBetween_nodesOf body ids hbody hbbody).mono (Nat.le_refl _) hle⟩
  | .ifThen cond opener body elseIfs otherwise closer, ids, lo, hi, hs, hb => by
    simp only [Item.tokens, allSound_cons, allSound_append, List.map_cons, List.map_append,
      List.map_nil, Between, between_append] at hs hb
    obtain ⟨ho, ⟨⟨hbody, hclauses⟩, hlast⟩, hc, -⟩ := hs
    obtain ⟨hlo, mid₃, ⟨mid₂, ⟨mid₁, hbbody, hbclauses⟩, hblast⟩, hle, hhi⟩ := hb
    have h₁ := hbbody.le
    have h₂ := hbclauses.le
    have h₃ := hblast.le
    simp only [Item.nodes]
    refine laidBetween_construct ho.location hc.location hlo (by omega) hhi rfl rfl rfl
      fun p hp => .inl ?_
    obtain ⟨b, hb, rfl⟩ := List.mem_map.mp hp
    refine ⟨rfl, ?_⟩
    rcases List.mem_append.mp hb with hb | hb
    · rcases List.mem_cons.mp hb with rfl | hb
      · exact (laidBetween_nodesOf body ids hbody hbbody).mono (Nat.le_refl _) (by omega)
      · exact (laidBetween_branchesOf elseIfs _ hclauses hbclauses b hb).mono (by omega) (by omega)
    · exact (laidBetween_lastBranchOf otherwise _ hlast hblast b hb).mono (by omega) (by omega)
  | .switch expr opener blanks cases otherwise closer, ids, lo, hi, hs, hb => by
    simp only [Item.tokens, allSound_cons, allSound_append, List.map_cons, List.map_append,
      List.map_nil, Between, between_append] at hs hb
    obtain ⟨ho, ⟨⟨-, hclauses⟩, hlast⟩, hc, -⟩ := hs
    obtain ⟨hlo, mid₃, ⟨mid₂, ⟨mid₁, hbblanks, hbclauses⟩, hblast⟩, hle, hhi⟩ := hb
    have h₁ := hbblanks.le
    have h₂ := hbclauses.le
    have h₃ := hblast.le
    simp only [Item.nodes]
    refine laidBetween_construct ho.location hc.location hlo (by omega) hhi rfl rfl rfl
      fun p hp => .inl ?_
    obtain ⟨b, hb, rfl⟩ := List.mem_map.mp hp
    refine ⟨rfl, ?_⟩
    rcases List.mem_append.mp hb with hb | hb
    · exact (laidBetween_branchesOf cases _ hclauses hbclauses b hb).mono (by omega) (by omega)
    · exact (laidBetween_lastBranchOf otherwise _ hlast hblast b hb).mono (by omega) (by omega)
  | .forEach var expr opener body ifEmpty closer, ids, lo, hi, hs, hb => by
    simp only [Item.tokens, allSound_cons, allSound_append, List.map_cons, List.map_append,
      List.map_nil, Between, between_append] at hs hb
    obtain ⟨ho, ⟨hbody, hlast⟩, hc, -⟩ := hs
    obtain ⟨hlo, mid₂, ⟨mid₁, hbbody, hblast⟩, hle, hhi⟩ := hb
    have h₁ := hbbody.le
    have h₂ := hblast.le
    simp only [Item.nodes]
    refine laidBetween_construct ho.location hc.location hlo (by omega) hhi rfl rfl rfl
      fun p hp => .inl ?_
    obtain ⟨b, hb, rfl⟩ := List.mem_map.mp hp
    refine ⟨rfl, ?_⟩
    rcases List.mem_cons.mp hb with rfl | hb
    · exact (laidBetween_nodesOf body ids hbody hbbody).mono (Nat.le_refl _) (by omega)
    · exact (laidBetween_lastBranchOf ifEmpty _ hlast hblast b hb).mono (by omega) (by omega)

/-- So do the nodes of a body. -/
theorem laidBetween_nodesOf {src : Text} : ∀ (items : List Item) (ids : IdSource) {lo hi : Nat},
    AllSound src (tokensOf items) → Between lo ((tokensOf items).map Token.location) hi →
    LaidBetween src lo (nodesOf ids items).1 hi
  | [], ids, lo, hi, _, hb => by
    rw [nodesOf]
    exact laidBetween_nil hb
  | item :: items, ids, lo, hi, hs, hb => by
    simp only [tokensOf, allSound_append, List.map_append, between_append] at hs hb
    obtain ⟨mid, hitem, hitems⟩ := hb
    rw [nodesOf]
    exact (item.laidBetween ids hs.1 hitem).append (laidBetween_nodesOf items _ hs.2 hitems)

/-- The parameters of a call. -/
theorem laidBetween_paramsOf {src : Text} : ∀ (args : List Arg) (ids : IdSource) {lo hi : Nat},
    AllSound src (tokensOfArgs args) → Between lo ((tokensOfArgs args).map Token.location) hi →
    ParamsBetween src lo (paramsOf ids args).1 hi
  | [], ids, lo, hi, _, _ => by
    rw [paramsOf]
    exact nofun
  | .expr blanks name expr kind location :: args, ids, lo, hi, hs, hb => by
    simp only [tokensOfArgs, Arg.tokens, allSound_append, allSound_cons, List.map_cons,
      List.map_append, List.map_nil, Between, between_append, Token.location] at hs hb
    obtain ⟨⟨-, hloc, -⟩, hargs⟩ := hs
    obtain ⟨mid₂, ⟨mid₁, hbblanks, hlo, hhi⟩, hbargs⟩ := hb
    have h₁ := hbblanks.le
    have h₂ := hbargs.le
    have h₃ := location.start_le_stop
    simp only [paramsOf, Arg.param]
    refine List.forall_mem_cons.mpr ⟨⟨hloc.location, h₁.trans hlo, hhi.trans h₂,
      laidBetween_nil location.start_le_stop⟩, fun p hp => ?_⟩
    obtain ⟨hsound, hstart, hstop⟩ := laidBetween_paramsOf args _ hargs hbargs p hp
    exact ⟨hsound, by omega, hstop⟩
  | .content blanks name kind opener body closer :: args, ids, lo, hi, hs, hb => by
    simp only [tokensOfArgs, Arg.tokens, allSound_append, allSound_cons, List.map_cons,
      List.map_append, List.map_nil, Between, between_append, Token.location] at hs hb
    obtain ⟨⟨-, ho, hbody, hc, -⟩, hargs⟩ := hs
    obtain ⟨mid₃, ⟨mid₁, hbblanks, hlo, mid₂, hbbody, hle, hhi⟩, hbargs⟩ := hb
    have h₁ := hbblanks.le
    have h₂ := hbbody.le
    have h₃ := hbargs.le
    have h₄ := opener.start_le_stop
    have h₅ := closer.start_le_stop
    obtain ⟨hstart, hstop⟩ := Span.union_eq_of_le (h₂.trans hle)
    simp only [paramsOf, Arg.param]
    refine List.forall_mem_cons.mpr ⟨⟨ho.location.union hc.location (h₂.trans hle), ?_, ?_, ?_⟩,
      fun p hp => ?_⟩
    · rw [hstart]
      exact h₁.trans hlo
    · rw [hstop]
      exact hhi.trans h₃
    · rw [hstart, hstop]
      exact (laidBetween_nodesOf body _ hbody hbbody).mono (by omega) (by omega)
    · obtain ⟨hsound, hstart, hstop⟩ := laidBetween_paramsOf args _ hargs hbargs p hp
      exact ⟨hsound, by omega, hstop⟩

/-- The branches of clauses. -/
theorem laidBetween_branchesOf {src : Text} {command : Text → Command} :
    ∀ (clauses : List Clause) (ids : IdSource) {lo hi : Nat},
    AllSound src (tokensOfClauses command clauses) →
    Between lo ((tokensOfClauses command clauses).map Token.location) hi →
    BranchesBetween src lo (branchesOf ids clauses).1 hi
  | [], ids, lo, hi, _, _ => by
    rw [branchesOf]
    exact nofun
  | ⟨expr, opener, body⟩ :: clauses, ids, lo, hi, hs, hb => by
    simp only [tokensOfClauses, Clause.tokens, allSound_append, allSound_cons, List.map_cons,
      List.map_append, Between, between_append] at hs hb
    obtain ⟨⟨-, hbody⟩, hclauses⟩ := hs
    obtain ⟨mid, ⟨hlo, hbbody⟩, hbclauses⟩ := hb
    have h₁ := hbbody.le
    have h₂ := hbclauses.le
    have hopener := hlo.trans opener.start_le_stop
    simp only [branchesOf, Clause.branch]
    exact List.forall_mem_cons.mpr ⟨(laidBetween_nodesOf body ids hbody hbbody).mono hopener h₂,
      fun b hb => (laidBetween_branchesOf clauses _ hclauses hbclauses b hb).mono
        (hopener.trans h₁) (Nat.le_refl _)⟩

/-- The last branch. -/
theorem laidBetween_lastBranchOf {src : Text} {command : Command} :
    ∀ (otherwise : Option Fallback) (ids : IdSource) {lo hi : Nat},
    AllSound src (tokensOfFallback command otherwise) →
    Between lo ((tokensOfFallback command otherwise).map Token.location) hi →
    BranchesBetween src lo (lastBranchOf ids otherwise).1 hi
  | none, ids, lo, hi, _, _ => by
    rw [lastBranchOf]
    exact nofun
  | some ⟨opener, body⟩, ids, lo, hi, hs, hb => by
    simp only [tokensOfFallback, Fallback.tokens, allSound_cons, List.map_cons, Between] at hs hb
    simp only [lastBranchOf, Fallback.branch]
    exact List.forall_mem_cons.mpr ⟨(laidBetween_nodesOf body ids hs.2 hb.2).mono
      (hb.1.trans opener.start_le_stop) (Nat.le_refl _), nofun⟩

end

/-- **The nodes of a template that is read stand where the source has them.** -/
theorem Template.laidOut {src : Text} {kind : ContentKind} {ids ids' : IdSource} {t : Template}
    (h : Template.read src kind ids = .ok (t, ids')) :
    t.location.start = 0 ∧ t.location.stop = src.size ∧ LaidBetween src 0 t.nodes src.size := by
  obtain ⟨items, hcut, rfl, rfl⟩ := Template.read_eq_ok.mp h
  obtain ⟨hsound, hbetween⟩ := hcut.laidOut (List.nil_append src).symm rfl
  exact ⟨rfl, rfl, laidBetween_nodesOf items ids hsound hbetween⟩

end TemplateMarkup
