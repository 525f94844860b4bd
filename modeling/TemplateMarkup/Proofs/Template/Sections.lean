/-
# The templates of a file, one by one

A template of a file is the section of the source between its `{template}` and its `{/template}`
command, read as if nothing else were there: the same parameters, and the same nodes as many bytes
further on as stand before the section.

The two readings go in step.  `Body.Ahead k` relates a body in the file to the body read from the
section alone: under other names, with every place `k` bytes behind.  A token keeps the relation
(`Body.Ahead.step`), since a place is only ever copied or covered together with another, and so do
the tokens of the section (`Body.Ahead.readScan`).  That a template of the file was read from the
tokens of its section and from nothing else is an invariant of the reading of the file
(`FileReading.Holds`).
-/
import Mathlib.Data.List.Forall2
import TemplateMarkup.Proofs.Template.Accepted
import TemplateMarkup.Proofs.Template.LaidOut
import TemplateMarkup.Proofs.Tree.Moved

namespace TemplateMarkup

/-! ## 1. Tokens further on -/

/-- The token `k` bytes further on. -/
def Token.moved (k : Nat) : Token → Token
  | .text t s => .text t (s.moved k)
  | .command c s => .command c (s.moved k)

namespace CutsInto

/-- **The tokens of a source do not depend on where it begins**, but for their places. -/
theorem moved {pos k : Nat} {src : Text} {tokens : List Token} (h : CutsInto (pos + k) src tokens) :
    ∃ tokens', tokens = tokens'.map (Token.moved k) ∧ CutsInto pos src tokens' := by
  -- every place of the cut is `k` bytes behind one of the cut that is built
  generalize hfrom : pos + k = from' at h
  induction h generalizing pos with
  | nil => exact ⟨[], rfl, .nil⟩
  | @text _ t rest tokens location hstart hstop hne ht hrest _ ih =>
    obtain ⟨start, stop, hle⟩ := location
    simp only at hstart hstop
    obtain ⟨tokens', rfl, hcut⟩ := @ih (pos + Text.size t) (by simp only; omega)
    let back : Span := ⟨pos, pos + Text.size t, by omega⟩
    refine ⟨.text t back :: tokens', ?_, .text back rfl rfl hne ht hrest hcut⟩
    simp only [List.map_cons, Token.moved, Span.moved, List.cons.injEq, and_true, Token.text.injEq,
      true_and, Span.mk.injEq, back]
    constructor <;> omega
  | @command _ inner rest command tokens location hstart hstop hu hread _ ih =>
    obtain ⟨start, stop, hle⟩ := location
    simp only at hstart hstop
    obtain ⟨tokens', rfl, hcut⟩ := @ih (pos + Text.size inner + 2) (by simp only; omega)
    let back : Span := ⟨pos, pos + Text.size inner + 2, by omega⟩
    refine ⟨.command command back :: tokens', ?_, .command back rfl rfl hu hread hcut⟩
    simp only [List.map_cons, Token.moved, Span.moved, List.cons.injEq, and_true,
      Token.command.injEq, true_and, Span.mk.injEq, back]
    constructor <;> omega

/-- The source is cut where its tokens are. -/
theorem split {pos : Nat} {src : Text} {tokens tokens' : List Token}
    (h : CutsInto pos src (tokens ++ tokens')) :
    ∃ s s', src = s ++ s' ∧ CutsInto pos s tokens ∧ CutsInto (pos + s.size) s' tokens' := by
  induction tokens generalizing pos src with
  | nil => exact ⟨[], src, rfl, .nil, h⟩
  | cons token tokens ih =>
    cases h with
    | @text _ t rest _ location hstart hstop hne ht hrest hcut =>
      obtain ⟨s, s', rfl, hs, hs'⟩ := ih hcut
      have hhead : s.head?.all (· == '{') = true := by
        cases s with
        | nil => rfl
        | cons c cs => exact hrest
      refine ⟨t ++ s, s', by rw [List.append_assoc], .text location hstart hstop hne ht hhead hs, ?_⟩
      rwa [Text.size_append, ← Nat.add_assoc, ← hstop]
    | @command _ inner rest command _ location hstart hstop hu hread hcut =>
      obtain ⟨s, s', rfl, hs, hs'⟩ := ih hcut
      refine ⟨TemplateMarkup.braced inner ++ s, s', by rw [List.append_assoc],
        .command location hstart hstop hu hread hs, ?_⟩
      rwa [Text.size_append, size_braced, ← Nat.add_assoc, ← Nat.add_assoc, ← hstop]

/-- The source of a command and of what comes after it. -/
theorem head {pos : Nat} {src : Text} {command : Command} {location : Span} {tokens : List Token}
    (h : CutsInto pos src (.command command location :: tokens)) :
    ∃ inner rest, src = TemplateMarkup.braced inner ++ rest ∧ Spells inner command
      ∧ location.start = pos ∧ location.stop = pos + (TemplateMarkup.braced inner).size
      ∧ CutsInto location.stop rest tokens := by
  cases h with
  | @command _ inner rest _ _ _ hstart hstop hu hread hcut =>
    exact ⟨inner, rest, rfl, ⟨hu, hread⟩, hstart, by rw [hstop, size_braced, Nat.add_assoc], hcut⟩

end CutsInto

/-! ## 2. Two readings in step -/

/-- The first construct is the second one, `k` bytes further on and under other names. -/
inductive Frame.Ahead (k : Nat) : Frame → Frame → Prop
  | letBody (opener : Span) (var : Text) (kind : Option ContentKind) :
    Ahead k (.letBody (opener.moved k) var kind) (.letBody opener var kind)
  | call (opener : Span) (callee : Text) {params params' : List Param} :
    movedParams 0 params = movedParams k params' →
    Ahead k (.call (opener.moved k) callee params) (.call opener callee params')
  | paramBody (opener : Span) (callee : Text) {params params' : List Param} (paramOpener : Span)
      (name : Text) (kind : Option ContentKind) :
    movedParams 0 params = movedParams k params' →
    Ahead k (.paramBody (opener.moved k) callee params (paramOpener.moved k) name kind)
      (.paramBody opener callee params' paramOpener name kind)
  | ifBranch (opener : Span) {branches branches' : List Branch} (kind : BranchKind) :
    movedBranches 0 branches = movedBranches k branches' →
    Ahead k (.ifBranch (opener.moved k) branches kind) (.ifBranch opener branches' kind)
  | switchHead (opener : Span) (expr : Text) :
    Ahead k (.switchHead (opener.moved k) expr) (.switchHead opener expr)
  | switchBranch (opener : Span) (expr : Text) {branches branches' : List Branch}
      (kind : BranchKind) :
    movedBranches 0 branches = movedBranches k branches' →
    Ahead k (.switchBranch (opener.moved k) expr branches kind)
      (.switchBranch opener expr branches' kind)
  | forBody (opener : Span) (var expr : Text) :
    Ahead k (.forBody (opener.moved k) var expr) (.forBody opener var expr)
  | forEmpty (opener : Span) (var expr : Text) {branches branches' : List Branch} :
    movedBranches 0 branches = movedBranches k branches' →
    Ahead k (.forEmpty (opener.moved k) var expr branches) (.forEmpty opener var expr branches')

namespace Body

/-- The first body is the second one, `k` bytes further on and under other names. -/
structure Ahead (k : Nat) (b b' : Body) : Prop where
  params : b.params = b'.params
  nodes : NodesAhead k b.nodes b'.nodes
  frames : List.Forall₂ (fun f f' => f.1.Ahead k f'.1 ∧ NodesAhead k f.2 f'.2)
    b.frames b'.frames

/-- Where the first reading goes on, so does the second, and they stay in step. -/
def Follows (k : Nat) (r r' : Except Rejection Body) : Prop :=
  ∀ b, r = .ok b → ∃ b', r' = .ok b' ∧ b.Ahead k b'

section

variable {k : Nat} {b b' : Body} {r r' : Except Rejection Body}

theorem ahead_empty (k : Nat) (ids ids' : IdSource) : (empty ids).Ahead k (empty ids') :=
  ⟨rfl, nodesAhead_nil, .nil⟩

/-- The names that are left do not matter. -/
theorem Ahead.ids (h : b.Ahead k b') (ids ids' : IdSource) :
    Ahead k { b with ids := ids } { b' with ids := ids' } := ⟨h.params, h.nodes, h.frames⟩

theorem Ahead.add (h : b.Ahead k b') {node node' : NodeId → Node}
    (hnode : ∀ id id', (node id).moved 0 = (node' id').moved k) :
    (b.add node).Ahead k (b'.add node') :=
  ⟨h.params, nodesAhead_cons (hnode _ _) h.nodes, h.frames⟩

theorem Ahead.enter (h : b.Ahead k b') {frame frame' : Frame} (hf : frame.Ahead k frame') :
    (b.enter frame).Ahead k (b'.enter frame') :=
  ⟨h.params, nodesAhead_nil, .cons ⟨hf, h.nodes⟩ h.frames⟩

theorem follows_ok (h : b.Ahead k b') : Follows k (.ok b) (.ok b') := by
  rintro _ ⟨⟩
  exact ⟨b', rfl, h⟩

theorem follows_error (rejection : Rejection) : Follows k (.error rejection) r' := nofun

/-- Both readings expect the same closing command. -/
theorem follows_close {ids ids' : IdSource} {name : String} {command : Command}
    {location location' : Span} (h : Follows k r r') :
    Follows k (expectClose ids name command location >>= fun _ => r)
      (expectClose ids' name command location' >>= fun _ => r') := by
  unfold expectClose
  by_cases hclose : command = .close name.toList
  · rw [if_pos hclose, if_pos hclose]
    exact h
  · rw [if_neg hclose]
    exact follows_error _

/-- Both readings find blanks in the same nodes. -/
theorem follows_blank {ids ids' : IdSource} {name : String} {nodes nodes' : List Node}
    (hn : NodesAhead k nodes nodes') (h : Follows k r r') :
    Follows k (expectBlank ids name nodes >>= fun _ => r)
      (expectBlank ids' name nodes' >>= fun _ => r') := by
  intro c hc
  have hblank : AllBlank nodes := by
    cases he : expectBlank ids name nodes with
    | ok u => exact expectBlank_eq_ok.mp he
    | error rejection =>
      rw [he] at hc
      cases hc
  have hblank' : AllBlank nodes' := by
    intro n hn'
    have hmem : n.rawText? ∈ nodes.map Node.rawText? := hn.rawTexts ▸ List.mem_map_of_mem hn'
    obtain ⟨m, hm, htext⟩ := List.mem_map.mp hmem
    rw [← htext]
    exact hblank m hm
  rw [expectBlank_eq_ok.mpr hblank] at hc
  rw [expectBlank_eq_ok.mpr hblank']
  exact h c hc

end

end Body

section

variable {k : Nat} {b b' : Body} {inner inner' : List Node}

theorem movedParams_cons {params params' : List Param} {id id' : NodeId} (s : Span) (name : Text)
    {value value' : Value} (hv : value.moved 0 = value'.moved k)
    (h : movedParams 0 params = movedParams k params') :
    movedParams 0 (⟨id, s.moved k, name, value⟩ :: params)
      = movedParams k (⟨id', s, name, value'⟩ :: params') := by
  simp only [movedParams, Param.moved, Span.moved_zero, hv, h]

theorem movedBranches_cons {branches branches' : List Branch} (id id' : NodeId)
    (kind : BranchKind) (hn : NodesAhead k inner inner')
    (h : movedBranches 0 branches = movedBranches k branches') :
    movedBranches 0 (⟨id, kind, inner.reverse⟩ :: branches)
      = movedBranches k (⟨id', kind, inner'.reverse⟩ :: branches') := by
  have hrev := hn.reverse
  unfold NodesAhead at hrev
  simp only [movedBranches, Branch.moved, hrev, h]

/-- A control-flow node whose branches have been read. -/
theorem Frame.moved_flowNode {branches branches' : List Branch} (opener closer : Span)
    (head : FlowHead) (h : movedBranches 0 branches = movedBranches k branches')
    (id id' : NodeId) :
    (flowNode (opener.moved k) (closer.moved k) head branches id).moved 0
      = (flowNode opener closer head branches' id').moved k := by
  have hrev := congrArg List.reverse h
  rw [← movedBranches_reverse, ← movedBranches_reverse] at hrev
  simp only [flowNode, Node.moved, Flow.moved, Span.moved_zero, Span.moved_union, hrev]

/-- **A command that ends a body keeps the readings in step**, by the construct that is open. -/
theorem Frame.Ahead.resume {frame frame' : Frame} (hf : frame.Ahead k frame')
    (hb : b.Ahead k b') (hi : NodesAhead k inner inner') (command : Command)
    (location : Span) :
    Body.Follows k (frame.resume b inner command (location.moved k))
      (frame'.resume b' inner' command location) := by
  have hrest := hb.ids b.ids.rest b'.ids.rest
  have hrev := hi.reverse
  unfold NodesAhead at hrev
  cases hf with
  | letBody opener var kind =>
    refine Body.follows_close (Body.follows_ok (hb.add ?_))
    intro id id'
    simp only [Node.moved, Value.moved, Span.moved_zero, Span.moved_union, hrev]
  | @call opener callee params params' hp =>
    refine Body.follows_blank hi ?_
    cases command with
    | param name expr kind =>
      cases expr with
      | some expr =>
        refine Body.follows_ok (hrest.enter (.call opener callee ?_))
        refine movedParams_cons location name ?_ hp
        simp only [Value.moved]
      | none => exact Body.follows_ok (hb.enter (.paramBody opener callee location name kind hp))
    | _ =>
      refine Body.follows_close (Body.follows_ok (hb.add ?_))
      intro id id'
      have hprev := congrArg List.reverse hp
      rw [← movedParams_reverse, ← movedParams_reverse] at hprev
      simp only [Node.moved, Span.moved_zero, Span.moved_union, hprev]
  | @paramBody opener callee params params' paramOpener name kind hp =>
    refine Body.follows_close (Body.follows_ok (hrest.enter (.call opener callee ?_)))
    rw [← Span.moved_union]
    refine movedParams_cons _ name ?_ hp
    simp only [Value.moved, hrev]
  | @ifBranch opener branches branches' kind hbr =>
    have hbr' := movedBranches_cons b.ids.next b'.ids.next kind hi hbr
    cases command with
    | elseIf cond =>
      by_cases hk : kind = .default
      · simp only [Frame.resume, if_pos hk]
        exact Body.follows_error _
      · simp only [Frame.resume, if_neg hk]
        exact Body.follows_ok (hrest.enter (.ifBranch opener _ hbr'))
    | otherwise =>
      by_cases hk : kind = .default
      · simp only [Frame.resume, if_pos hk]
        exact Body.follows_error _
      · simp only [Frame.resume, if_neg hk]
        exact Body.follows_ok (hrest.enter (.ifBranch opener _ hbr'))
    | _ => exact Body.follows_close (Body.follows_ok (hrest.add (moved_flowNode _ _ _ hbr')))
  | switchHead opener expr =>
    refine Body.follows_blank hi ?_
    cases command with
    | caseOf exprs => exact Body.follows_ok (hb.enter (.switchBranch opener expr _ rfl))
    | default => exact Body.follows_ok (hb.enter (.switchBranch opener expr _ rfl))
    | _ => exact Body.follows_close (Body.follows_ok (hb.add (moved_flowNode _ _ _ rfl)))
  | @switchBranch opener expr branches branches' kind hbr =>
    have hbr' := movedBranches_cons b.ids.next b'.ids.next kind hi hbr
    cases command with
    | caseOf exprs =>
      by_cases hk : kind = .default
      · simp only [Frame.resume, if_pos hk]
        exact Body.follows_error _
      · simp only [Frame.resume, if_neg hk]
        exact Body.follows_ok (hrest.enter (.switchBranch opener expr _ hbr'))
    | default =>
      by_cases hk : kind = .default
      · simp only [Frame.resume, if_pos hk]
        exact Body.follows_error _
      · simp only [Frame.resume, if_neg hk]
        exact Body.follows_ok (hrest.enter (.switchBranch opener expr _ hbr'))
    | _ => exact Body.follows_close (Body.follows_ok (hrest.add (moved_flowNode _ _ _ hbr')))
  | forBody opener var expr =>
    have hnone : movedBranches 0 [] = movedBranches k [] := rfl
    have hbr' := movedBranches_cons b.ids.next b'.ids.next .loopBody hi hnone
    cases command with
    | ifEmpty => exact Body.follows_ok (hrest.enter (.forEmpty opener var expr hbr'))
    | _ => exact Body.follows_close (Body.follows_ok (hrest.add (moved_flowNode _ _ _ hbr')))
  | @forEmpty opener var expr branches branches' hbr =>
    have hbr' := movedBranches_cons b.ids.next b'.ids.next .default hi hbr
    exact Body.follows_close (Body.follows_ok (hrest.add (moved_flowNode _ _ _ hbr')))

end

namespace Body

variable {k : Nat} {b b' : Body}

/-- A command that ends a body or a part of one. -/
theorem Ahead.endPart (h : b.Ahead k b') (command : Command) (location : Span) :
    Follows k (b.endPart command (location.moved k)) (b'.endPart command location) := by
  obtain ⟨ids, params, nodes, frames⟩ := b
  obtain ⟨ids', params', nodes', frames'⟩ := b'
  obtain ⟨hparams, hnodes, hframes⟩ := h
  cases hframes with
  | nil => exact follows_error _
  | @cons f f' frames frames' hf hrest =>
    have houter : Ahead k ⟨ids, params, f.2, frames⟩ ⟨ids', params', f'.2, frames'⟩ :=
      ⟨hparams, hf.2, hrest⟩
    exact hf.1.resume houter hnodes command location

/-- **A token keeps the readings in step.** -/
theorem Ahead.step (h : b.Ahead k b') (token : Token) :
    Follows k (b.step (token.moved k)) (b'.step token) := by
  cases token with
  | text t s =>
    refine follows_ok (h.add ?_)
    intro id id'
    simp only [Node.moved, Span.moved_zero]
  | command command s =>
    cases command with
    | special t =>
      cases t with
      | nil => exact follows_ok h
      | cons c cs =>
        refine follows_ok (h.add ?_)
        intro id id'
        simp only [Node.moved, Span.moved_zero]
    | print expr =>
      refine follows_ok (h.add ?_)
      intro id id'
      simp only [Node.moved, Span.moved_zero]
    | call callee selfClosing =>
      cases selfClosing with
      | true =>
        refine follows_ok (h.add ?_)
        intro id id'
        simp only [Node.moved, movedParams, Span.moved_zero]
      | false => exact follows_ok (h.enter (.call s callee rfl))
    | binding var expr kind =>
      cases expr with
      | some expr =>
        refine follows_ok (h.add ?_)
        intro id id'
        simp only [Node.moved, Value.moved, Span.moved_zero]
      | none => exact follows_ok (h.enter (.letBody s var kind))
    | ifThen cond => exact follows_ok (h.enter (.ifBranch s (.cond cond) rfl))
    | switch expr => exact follows_ok (h.enter (.switchHead s expr))
    | forEach var expr => exact follows_ok (h.enter (.forBody s var expr))
    | paramDecl name type =>
      refine follows_ok ⟨?_, h.nodes, h.frames⟩
      simp only [h.params]
    | _ => exact h.endPart _ s

/-- So do the tokens of a source. -/
theorem Ahead.readScan (h : b.Ahead k b') (tokens : List Token) :
    Follows k (b.readScan (tokens.map (Token.moved k)) none) (b'.readScan tokens none) := by
  induction tokens generalizing b b' with
  | nil => exact follows_ok h
  | cons token tokens ih =>
    intro c hc
    cases hstep : b.step (token.moved k) with
    | error rejection =>
      rw [List.map_cons, Body.readScan, hstep] at hc
      cases hc
    | ok b₁ =>
      obtain ⟨b₁', hstep', h₁⟩ := h.step token b₁ hstep
      rw [List.map_cons, readScan_step hstep] at hc
      rw [readScan_step hstep']
      exact ih h₁ c hc

/-- A token behind others. -/
theorem readScan_snoc {tokens : List Token} {token : Token} {c : Body}
    (h : b.readScan tokens none = .ok b') (hstep : b'.step token = .ok c) :
    b.readScan (tokens ++ [token]) none = .ok c := by
  induction tokens generalizing b with
  | nil =>
    cases h
    rw [List.nil_append, readScan_step hstep]
    rfl
  | cons first tokens ih =>
    cases hfirst : b.step first with
    | error rejection =>
      rw [Body.readScan, hfirst] at h
      cases h
    | ok b₁ =>
      rw [readScan_step hfirst] at h
      rw [List.cons_append, readScan_step hfirst]
      exact ih h

end Body

/-! ## 3. A file and its sections -/

/-- The tokens end inside the template: its command, and then the tokens its body was read from. -/
def OpenTemplate.OpenIn (tokens : List Token) (t : OpenTemplate) : Prop :=
  ∃ before inside declared, tokens = before ++ .command (.template t.name declared) t.opener :: inside
    ∧ t.kind = declaredOrHtml declared ∧ ∃ ids, (Body.empty ids).readScan inside none = .ok t.body

/-- The template when its closing command has been read. -/
def OpenTemplate.closed (t : OpenTemplate) (location : Span) : Template where
  id := t.body.ids.next
  location := t.opener.union location
  name := t.name
  kind := t.kind
  params := t.body.params.reverse
  nodes := t.body.nodes.reverse

/-- The tokens hold the template whole: it was open in the tokens before its closing command, and
nothing in it was. -/
def Template.ClosedIn (tokens : List Token) (t : Template) : Prop :=
  ∃ (o : OpenTemplate) (before after : List Token) (location : Span),
    tokens = before ++ .command (.close "template".toList) location :: after ∧ o.OpenIn before
      ∧ o.body.frames = [] ∧ t = o.closed location

/-- More tokens do not change what a template was read from. -/
theorem Template.ClosedIn.append {tokens : List Token} {t : Template} (h : t.ClosedIn tokens)
    (more : List Token) : t.ClosedIn (tokens ++ more) := by
  obtain ⟨o, before, after, location, rfl, ho, hframes, rfl⟩ := h
  exact ⟨o, before, after ++ more, location, by rw [List.append_assoc, List.cons_append], ho,
    hframes, rfl⟩

namespace FileReading

variable {f f' : FileReading} {tokens : List Token}

/-- Every template was read from tokens of its own. -/
structure Holds (tokens : List Token) (f : FileReading) : Prop where
  templates : ∀ t ∈ f.templates, t.ClosedIn tokens
  current : ∀ t, f.current = some t → t.OpenIn tokens

theorem holds_empty (ids : IdSource) : Holds [] (empty ids) := ⟨nofun, nofun⟩

/-- Outside a template only `{template}` opens one. -/
theorem Holds.stepOutside {token : Token} (h : f.Holds tokens) (hnone : f.current = none)
    (hstep : f.stepOutside token = .ok f') : f'.Holds (tokens ++ [token]) := by
  have hmore : ∀ t ∈ f.templates, t.ClosedIn (tokens ++ [token]) := by
    intro t ht
    exact (h.templates t ht).append [token]
  have hsame : f.Holds (tokens ++ [token]) := by
    refine ⟨hmore, ?_⟩
    intro t ht
    rw [hnone] at ht
    cases ht
  cases token with
  | text t s =>
    simp only [FileReading.stepOutside] at hstep
    split at hstep
    · cases hstep
      exact hsame
    · cases hstep
  | command command s =>
    cases command with
    | namespaceName name =>
      cases hstep
      exact ⟨hmore, hsame.current⟩
    | template name declared =>
      cases hstep
      refine ⟨hmore, ?_⟩
      rintro _ ⟨⟩
      exact ⟨tokens, [], declared, rfl, rfl, f.ids, rfl⟩
    | _ => cases hstep

/-- Only `{/template}` closes a template. -/
theorem close_eq_ok {t : OpenTemplate} {command : Command} {location : Span}
    (h : f.close t command location = .ok f') :
    command = .close "template".toList ∧ f'.templates = t.closed location :: f.templates
      ∧ f'.current = none := by
  unfold FileReading.close expectClose at h
  by_cases hc : command = .close "template".toList
  · rw [if_pos hc] at h
    cases h
    exact ⟨hc, rfl, rfl⟩
  · rw [if_neg hc] at h
    cases h

/-- The command that ends the body of a template is the token, and nothing is open in the body. -/
theorem endOfBody?_eq_some {body : Body} {token : Token} {command : Command} {location : Span}
    (h : endOfBody? body token = some (command, location)) :
    token = .command command location ∧ body.frames = [] := by
  cases token with
  | text t s => cases h
  | command c s =>
    simp only [endOfBody?] at h
    split at h
    · next hend =>
      cases h
      exact ⟨rfl, List.isEmpty_iff.mp (Bool.and_eq_true_iff.mp hend).2⟩
    · cases h

/-- **A token leaves every template with the tokens it was read from.** -/
theorem Holds.step {token : Token} (h : f.Holds tokens) (hstep : f.step token = .ok f') :
    f'.Holds (tokens ++ [token]) := by
  have hmore : ∀ t ∈ f.templates, t.ClosedIn (tokens ++ [token]) := by
    intro t ht
    exact (h.templates t ht).append [token]
  unfold FileReading.step at hstep
  cases hcur : f.current with
  | none =>
    rw [hcur] at hstep
    exact h.stepOutside hcur hstep
  | some o =>
    rw [hcur] at hstep
    have hopen := h.current o hcur
    cases hend : endOfBody? o.body token with
    | some p =>
      obtain ⟨command, location⟩ := p
      obtain ⟨rfl, hframes⟩ := endOfBody?_eq_some hend
      simp only [hend] at hstep
      obtain ⟨rfl, htemplates, hcurrent⟩ := close_eq_ok hstep
      constructor
      · rw [htemplates]
        refine List.forall_mem_cons.mpr ⟨?_, hmore⟩
        exact ⟨o, tokens, [], location, rfl, hopen, hframes, rfl⟩
      · rw [hcurrent]
        nofun
    | none =>
      simp only [hend] at hstep
      cases hbody : o.body.step token with
      | error rejection =>
        rw [hbody] at hstep
        cases hstep
      | ok body =>
        rw [hbody] at hstep
        cases hstep
        refine ⟨hmore, ?_⟩
        rintro _ ⟨⟩
        obtain ⟨before, inside, declared, rfl, hkind, ids, hread⟩ := hopen
        refine ⟨before, inside ++ [token], declared, ?_, hkind, ids, ?_⟩
        · rw [List.append_assoc, List.cons_append]
        · exact Body.readScan_snoc hread hbody

/-- So do the tokens of a file, which has no error then. -/
theorem Holds.readScan {later : List Token} {error : Option SyntaxError} (h : f.Holds tokens)
    (hread : f.readScan later error = .ok f') : error = none ∧ f'.Holds (tokens ++ later) := by
  induction later generalizing f tokens with
  | nil =>
    cases error with
    | none =>
      cases hread
      rw [List.append_nil]
      exact ⟨rfl, h⟩
    | some e => cases hread
  | cons token later ih =>
    cases hstep : f.step token with
    | error rejection =>
      rw [FileReading.readScan, hstep] at hread
      cases hread
    | ok f₁ =>
      rw [FileReading.readScan, hstep] at hread
      have := ih (h.step hstep) hread
      rwa [List.append_assoc, List.singleton_append] at this

end FileReading

/-- Each template of a file was read from tokens of its own. -/
theorem TemplateFile.closedIn_of_read {src : Text} {ids ids' : IdSource} {f : TemplateFile}
    (h : TemplateFile.read src ids = .ok (f, ids')) :
    ∃ tokens, CutsInto 0 src tokens ∧ ∀ t ∈ f.templates, t.ClosedIn tokens := by
  unfold TemplateFile.read at h
  dsimp only at h
  cases hscan : (FileReading.empty ids).readScan (Token.scan 0 src).1 (Token.scan 0 src).2 with
  | error rejection =>
    rw [hscan] at h
    cases h
  | ok file =>
    obtain ⟨herror, hholds⟩ := (FileReading.holds_empty ids).readScan hscan
    rw [hscan] at h
    have hcut := Token.cutsInto_scan 0 src herror
    cases hcur : file.current with
    | some o =>
      simp only [bind, Except.bind, FileReading.finish, hcur, Body.refuse] at h
      cases hfinish : o.body.finish with
      | error rejection =>
        rw [hfinish] at h
        cases h
      | ok body =>
        rw [hfinish] at h
        cases h
    | none =>
      simp only [bind, Except.bind, FileReading.finish, hcur] at h
      cases h
      refine ⟨_, hcut, ?_⟩
      intro t ht
      exact hholds.templates t (List.mem_reverse.mp ht)

/-- The tokens of a body that has been read are read alone to the same template, as many bytes
before as the body stands behind the beginning of its file. -/
theorem Template.read_of_readScan {k : Nat} {src : Text} {tokens : List Token} {ids : IdSource}
    {body : Body} (hcut : CutsInto k src tokens)
    (hread : (Body.empty ids).readScan tokens none = .ok body) (hframes : body.frames = [])
    (kind : ContentKind) (fresh : IdSource) :
    ∃ t rest, Template.read src kind fresh = .ok (t, rest) ∧ t.params = body.params.reverse
      ∧ NodesAhead k body.nodes.reverse t.nodes := by
  rw [← Nat.zero_add k] at hcut
  obtain ⟨tokens', rfl, hcut'⟩ := hcut.moved
  obtain ⟨body', hread', hahead⟩ :=
    (Body.ahead_empty k ids fresh).readScan tokens' body hread
  have hframes' : body'.frames = [] := by
    have hsame := hahead.frames.length_eq
    rw [hframes] at hsame
    exact List.eq_nil_of_length_eq_zero hsame.symm
  unfold Template.read
  rw [Token.scan_eq_iff.mpr hcut']
  dsimp only
  rw [hread']
  simp only [bind, Except.bind, Body.finish, hframes']
  exact ⟨_, _, rfl, by rw [hahead.params], hahead.nodes.reverse⟩

/-- **Every template of a file is a section of it, read alone.**  The source is cut at the two
commands of the template, which stands from the first to the second.  The text between them is
accepted as a template of the same kind; it declares the same parameters, and has the same nodes
under other names, each as many bytes before its place in the file as the section stands behind the
beginning. -/
theorem TemplateFile.read_sections {src : Text} {ids ids' : IdSource} {f : TemplateFile}
    (h : TemplateFile.read src ids = .ok (f, ids')) :
    ∀ t ∈ f.templates, ∃ before opener body closer after declared,
      src = before ++ (braced opener ++ (body ++ (braced closer ++ after)))
        ∧ Spells opener (.template t.name declared) ∧ t.kind = declaredOrHtml declared
        ∧ Spells closer (.close "template".toList) ∧ t.location.start = before.size
        ∧ t.location.stop = (before ++ (braced opener ++ (body ++ braced closer))).size
        ∧ ∀ fresh, ∃ alone rest, Template.read body t.kind fresh = .ok (alone, rest)
          ∧ alone.params = t.params
          ∧ movedNodes 0 t.nodes = movedNodes (before ++ braced opener).size alone.nodes := by
  obtain ⟨tokens, hcut, htemplates⟩ := TemplateFile.closedIn_of_read h
  intro t ht
  obtain ⟨o, upTo, later, location, rfl, ⟨earlier, inside, declared, rfl, hkind, ids₀, hread⟩,
    hframes, rfl⟩ := htemplates t ht
  rw [List.append_assoc, List.cons_append] at hcut
  obtain ⟨before, _, rfl, _, hcut⟩ := hcut.split
  obtain ⟨opener, _, rfl, hopener, hstart, hstop, hcut⟩ := hcut.head
  obtain ⟨body, _, rfl, hbody, hcut⟩ := hcut.split
  obtain ⟨closer, after, rfl, hcloser, hstart', hstop', _⟩ := hcut.head
  have hk : o.opener.stop = (before ++ braced opener).size := by
    rw [hstop, Nat.zero_add, Text.size_append]
  obtain ⟨hfrom, hto⟩ := Span.union_eq_of_le (s := o.opener) (t := location) (by omega)
  refine ⟨before, opener, body, closer, after, declared, rfl, hopener, hkind, hcloser, ?_, ?_, ?_⟩
  · exact hfrom.trans (by rw [hstart, Nat.zero_add])
  · refine hto.trans ?_
    rw [hstop', hk]
    simp only [Text.size_append]
    omega
  · intro fresh
    rw [hk] at hbody
    obtain ⟨alone, rest, hread', hparams, hnodes⟩ :=
      Template.read_of_readScan hbody hread hframes o.kind fresh
    exact ⟨alone, rest, hread', hparams, hnodes⟩

/-- A file of two templates: one declares a parameter, and the other has another kind. -/
theorem TemplateFile.read_sections_two :
    ∃ (src : Text) (f : TemplateFile) (ids' : IdSource),
      src = "\x7btemplate .a\x7d\x7b@param p: int\x7d<b>\x7b/template\x7d \x7btemplate .b kind=\"text\"\x7d\x7bif $c\x7dy\x7b/if\x7d\x7b/template\x7d".toList
      ∧ TemplateFile.read src (.startingAt 1) = .ok (f, ids') ∧ f.templates.length = 2
      ∧ ∀ t ∈ f.templates, ∃ before opener body closer after declared,
        src = before ++ (braced opener ++ (body ++ (braced closer ++ after)))
          ∧ Spells opener (.template t.name declared) ∧ t.kind = declaredOrHtml declared
          ∧ Spells closer (.close "template".toList) ∧ t.location.start = before.size
          ∧ t.location.stop = (before ++ (braced opener ++ (body ++ braced closer))).size
          ∧ ∀ fresh, ∃ alone rest, Template.read body t.kind fresh = .ok (alone, rest)
            ∧ alone.params = t.params
            ∧ movedNodes 0 t.nodes = movedNodes (before ++ braced opener).size alone.nodes := by
  obtain ⟨⟨f, ids'⟩, hread, hcheck⟩ := exists_ok_of_any
    (r := TemplateFile.read "\x7btemplate .a\x7d\x7b@param p: int\x7d<b>\x7b/template\x7d \x7btemplate .b kind=\"text\"\x7d\x7bif $c\x7dy\x7b/if\x7d\x7b/template\x7d".toList
      (.startingAt 1)) (p := fun r => r.1.templates.length == 2) (by decide +kernel)
  exact ⟨_, f, ids', rfl, hread, beq_iff_eq.mp hcheck, TemplateFile.read_sections hread⟩

end TemplateMarkup
