/-
# What the pass leaves as it is

Nodes are lasting in a context if the pass, fed with them, finishes each of them where it is: raw
text is content throughout (`Context.afterText?`), every other node is put back, branches agree, and
control flow is not nested deeper than there is room.  `lastingFrom?` follows the context along a
list and through branches and content blocks, as the pass does.

A lasting template is rewritten to itself, and nothing is reported (`Template.rewrite_lasting`).
-/
import TemplateMarkup.Proofs.Html.RoundTrip

namespace TemplateMarkup

/-! ## 1. Lasting nodes -/

/-- The context after text that is content throughout. -/
def Context.afterText? (here : Context) (t : Text) : Option Context :=
  match t with
  | [] => some here
  | c :: cs =>
    let l := here.lexeme c cs
    if l.mark.isNone && l.fault.isNone then afterText? l.next ((c :: cs).drop l.width) else none
termination_by here.workLeft t
decreasing_by exact workLeft_drop_lt fun _ => Nat.le_refl _

/-- The context after text at the end of a block or branch.  There a `<` or `</` begins no tag, and
is content as well. -/
def Context.afterLastText? (here : Context) (t : Text) : Option Context :=
  match t with
  | [] => some here
  | c :: cs =>
    if here = .pcdata ∧ (c :: cs = ['<'] ∨ c :: cs = ['<', '/']) then some .pcdata
    else
      let l := here.lexeme c cs
      if l.mark.isNone && l.fault.isNone then afterLastText? l.next ((c :: cs).drop l.width)
      else none
termination_by here.workLeft t
decreasing_by exact workLeft_drop_lt fun _ => Nat.le_refl _

/-- The only node, if it is raw text. -/
def onlyText? : List Node → Option Text
  | [.raw _ _ t] => some t
  | _ => none

/-- A context in which whole nodes stand: content, or between attributes. -/
def Context.isHome (here : Context) : Bool := here.isContent || here == .beforeAttrName

/-- The context after control flow, if its branches agree on it. -/
def agreed? (head : FlowHead) (entry : Context) (exits : Exits) : Option Context :=
  if head.isLoop then
    if exits.all fun e => e.2.kind == entry.kind then some entry else none
  else
    match exits.map Prod.snd ++ if exits.any fun e => e.1 == .default then [] else [entry] with
    | [] => some entry
    | first :: others => if others.all fun e => e.kind == first.kind then some first else none

mutual

/-- The context after the node, if it is lasting in a context; `room` tells how deep control flow
may be nested. -/
def Node.lastingFrom? (room : Nat) (here : Context) : Node → Option Context
  | .raw _ _ t => if t.isEmpty then none else here.afterText? t
  | .print .. => if here.isContent then some here else none
  | .call _ _ _ params => if here.isContent && paramsLast room params then some here else none
  | .binding _ _ _ value => if value.isLasting room then some here else none
  | .flow f => f.lastingFrom? room here
  | n => some ((Assembly.contextAfter? here n).getD here)

/-- The context after the nodes, if they are lasting and no two texts are neighbours. -/
def lastingFrom? (room : Nat) (here : Context) : List Node → Option Context
  | [] => some here
  | n :: nodes =>
    match onlyText? (n :: nodes) with
    | some t => if t.isEmpty then none else here.afterLastText? t
    | none =>
      if n.rawText?.isNone || nodes.head?.all fun m => m.rawText?.isNone then
        (n.lastingFrom? room here).bind fun next => lastingFrom? room next nodes
      else none

/-- The context after control flow whose branches are lasting and agree. -/
def Flow.lastingFrom? (room : Nat) (here : Context) : Flow → Option Context
  | ⟨_, _, head, branches⟩ =>
    if room = 0 then none
    else (lastingExits? (room - 1) here branches).bind (agreed? head here)

/-- The contexts after lasting branches. -/
def lastingExits? (room : Nat) (here : Context) : List Branch → Option Exits
  | [] => some []
  | ⟨_, kind, nodes⟩ :: branches =>
    (lastingFrom? room here nodes).bind fun exit =>
      (lastingExits? room here branches).map ((kind, exit) :: ·)

/-- The content block is lasting and ends in no raw context but the one it began in.  In a block
without html the content blocks are lasting. -/
def Value.isLasting (room : Nat) : Value → Bool
  | .expr _ => true
  | .content kind nodes =>
    match Context.entry? (declaredOrHtml kind) with
    | some entry => (lastingFrom? room entry nodes).any fun exit => exit == entry || !exit.isRaw
    | none => blocksLast room nodes

/-- Every content block among the parameters is lasting. -/
def paramsLast (room : Nat) : List Param → Bool
  | [] => true
  | ⟨_, _, _, value⟩ :: params => value.isLasting room && paramsLast room params

/-- Every content block in nodes that are not html is lasting. -/
def blocksLast (room : Nat) : List Node → Bool
  | [] => true
  | n :: nodes => n.blocksLast room && blocksLast room nodes

/-- Every content block in the node is lasting. -/
def Node.blocksLast (room : Nat) : Node → Bool
  | .call _ _ _ params => paramsLast room params
  | .binding _ _ _ value => value.isLasting room
  | .flow f => f.blocksLast room
  | _ => true

/-- Every content block in the control flow is lasting. -/
def Flow.blocksLast (room : Nat) : Flow → Bool
  | ⟨_, _, _, branches⟩ => branchesBlocksLast room branches

/-- Every content block in the branches is lasting. -/
def branchesBlocksLast (room : Nat) : List Branch → Bool
  | [] => true
  | ⟨_, _, nodes⟩ :: branches =>
    TemplateMarkup.blocksLast room nodes && branchesBlocksLast room branches

end

/-! ## 2. Text -/

namespace Context

/-- Content that stands at home stands where no construct is open, and so does what follows it. -/
theorem isContent_of_content {here : Context} {c : Char} {l : Lexeme} (h : Move here c l)
    (hm : l.mark = none) (hhere : here.isHome = true) :
    here.isContent = true ∧ l.next.isContent = true := by
  cases h <;> first | exact ⟨rfl, rfl⟩ | (cases hm; done) | simp [isHome, isContent] at hhere

theorem isContent_of_afterLastText? {here final : Context} {t : Text} (ht : t ≠ [])
    (h : here.afterLastText? t = some final) (hhere : here.isHome = true) :
    here.isContent = true ∧ final.isContent = true := by
  induction here, t using Context.afterLastText?.induct with
  | case1 here => exact absurd rfl ht
  | case2 here c cs hangle =>
    rw [afterLastText?, if_pos hangle] at h
    cases h
    rw [hangle.1]
    exact ⟨rfl, rfl⟩
  | case3 here c cs hangle l hclean ih =>
    rw [afterLastText?, if_neg hangle, if_pos hclean] at h
    rw [Bool.and_eq_true, Option.isNone_iff_eq_none] at hclean
    obtain ⟨hcontent, hnext⟩ := isContent_of_content (lexeme_move here c cs) hclean.1 hhere
    refine ⟨hcontent, ?_⟩
    cases hrest : (c :: cs).drop l.width with
    | nil =>
      rw [hrest, afterLastText?, Option.some.injEq] at h
      exact h ▸ hnext
    | cons d ds =>
      refine (ih ?_ h ?_).2
      · rw [hrest]
        simp
      · unfold isHome
        rw [hnext, Bool.true_or]
  | case4 here c cs hangle l hclean =>
    rw [afterLastText?, if_neg hangle, if_neg hclean] at h
    cases h

/-- Text that is content throughout is so at the end as well. -/
theorem afterLastText?_of_afterText? {here final : Context} {t : Text}
    (h : here.afterText? t = some final) : here.afterLastText? t = some final := by
  induction here, t using Context.afterText?.induct with
  | case1 here =>
    rw [afterText?] at h
    rw [afterLastText?, h]
  | case2 here c cs l hclean ih =>
    rw [afterText?, if_pos hclean] at h
    have hangle : ¬ (here = .pcdata ∧ (c :: cs = ['<'] ∨ c :: cs = ['<', '/'])) := by
      rintro ⟨rfl, hcs | hcs⟩ <;> cases hcs <;> cases hclean
    rw [afterLastText?, if_neg hangle, if_pos hclean]
    exact ih h
  | case3 here c cs l hclean =>
    rw [afterText?, if_neg hclean] at h
    cases h

theorem isContent_of_afterText? {here final : Context} {t : Text} (ht : t ≠ [])
    (h : here.afterText? t = some final) (hhere : here.isHome = true) :
    here.isContent = true ∧ final.isContent = true :=
  isContent_of_afterLastText? ht (afterLastText?_of_afterText? h) hhere

/-- Tags of elements whose body is text lead from home to home. -/
theorem isHome_contextAfter? {here : Context} (hhere : here.isHome = true) (n : Node) :
    ((Assembly.contextAfter? here n).getD here).isHome = true := by
  cases here with
  | pcdata => rcases Assembly.contextAfter?_pcdata n with hn | ⟨e, hn⟩ <;> rw [hn] <;> rfl
  | rcdata e => rcases Assembly.contextAfter?_rcdata e n with hn | hn <;> rw [hn] <;> rfl
  | _ =>
    rw [Assembly.contextAfter?_eq_none (by simp) (by simp)]
    exact hhere

theorem isHome_of_entry? {kind : ContentKind} {entry : Context} (h : entry? kind = some entry) :
    entry.isHome = true := by
  cases kind <;> cases h <;> rfl

theorem isSettled_of_isHome {here : Context} (h : here.isHome = true) : here.isSettled = true := by
  cases here <;> first | rfl | simp [isHome, isContent] at h

end Context

namespace Assembly

variable {b : Assembly}

/-- Text that is content is read as that. -/
theorem read_content {run : RawRun} {pos : Nat} {held : Option Held} {c : Char} {cs : Text}
    (h : ((b.context.lexeme c cs).mark.isNone && (b.context.lexeme c cs).fault.isNone) = true) :
    b.read run pos held (c :: cs)
      = (b.enter (b.context.lexeme c cs).next (run.locate pos)).read run
          (pos + Text.size ((c :: cs).take (b.context.lexeme c cs).width))
          (some (Held.add held pos ((c :: cs).take (b.context.lexeme c cs).width)))
          ((c :: cs).drop (b.context.lexeme c cs).width) := by
  rw [Bool.and_eq_true, Option.isNone_iff_eq_none, Option.isNone_iff_eq_none] at h
  refine read_cons_content ?_
  generalize b.context.lexeme c cs = l at h ⊢
  obtain ⟨next, mark, width, fault⟩ := l
  obtain ⟨rfl, rfl⟩ := h
  rfl

/-- Text that is added to content leaves the drafts alone. -/
theorem Closed.addText (h : b.Closed) (hb : b.context.isContent = true) (t : Text)
    (location : Span) : (b.addText t location).Closed := by
  obtain ⟨l, out, hout⟩ := addText_of_isContent hb t location
  rw [hout]
  exact h

theorem Closed.enter (h : b.Closed) (next : Context) (offset : Nat) :
    (b.enter next offset).Closed := by
  unfold Assembly.enter
  split
  · exact h
  · exact h

/-- Text that is added twice joins. -/
theorem addText_addText (b : Assembly) (t u : Text) (s s' s'' : Span) :
    ((b.addText t s).addText u s').Alike (b.addText (t ++ u) s'') := by
  obtain ⟨l, id, text, place, place', nodes, -, htwice, honce⟩ := b.exists_addText_twice t u s s' s''
  rw [htwice, honce]
  exact (Alike.refl _).setContent (by simp [Node.bare])

/-- A `<` or `</` at the end, where no tag can begin, joins the text before it. -/
theorem endsAlike_angle (h : b.Closed) (hb : b.context = .pcdata) (close : Bool) (location : Span)
    (offset : Nat) :
    ((b.openTag close location).enter (.tagName .empty) offset).EndsAlike
      (b.addText (if close then ['<', '/'] else ['<']) default) := by
  generalize hx : (b.openTag close location).enter (.tagName .empty) offset = x
  generalize hy : b.addText (if close then ['<', '/'] else ['<']) default = y
  have hxc : x.context = .tagName .empty := by
    rw [← hx]
    exact enter_context ..
  have hyc : y.context = .pcdata := by
    rw [← hy, addText_context, hb]
  have hyclosed : y.Closed := by
    rw [← hy]
    exact h.addText (by rw [hb]; rfl) _ _
  have hsettle : x.settleAtEnd = x.abortTag := by
    unfold settleAtEnd
    rw [hxc]
  have habort : ∃ z : Assembly, z.Alike b ∧ z.Closed
      ∧ x.abortTag = z.addText (if close then ['<', '/'] else ['<'])
        (Span.upTo location.start location.stop) := by
    obtain ⟨l, e, c, i, o, t, a, v, m, f, r, k⟩ := b
    dsimp only at hb
    subst hb
    obtain ⟨rfl, rfl, rfl, rfl⟩ := h
    refine ⟨({ x with tag := none } : Assembly).enter .pcdata location.start, ?_, ?_, ?_⟩
    all_goals rw [← hx]
    · exact ((enter_alike _ .pcdata _).trans (Alike.setContext (Alike.setTag
        (enter_alike _ (.tagName .empty) offset) rfl) .pcdata))
    · exact Closed.enter ⟨rfl, rfl, rfl, rfl⟩ _ _
    · cases close <;>
        simp [abortTag, Assembly.openTag, Assembly.enter, TagDraft.outside, Span.point]
  obtain ⟨z, hzb, hz, hxz⟩ := habort
  have hzc : z.context = .pcdata := hzb.context.trans hb
  have hxclosed : x.settleAtEnd.Closed := by
    rw [hsettle, hxz]
    exact hz.addText (by rw [hzc]; rfl) _ _
  have habort : x.abortTag.Alike y := by
    rw [hxz, ← hy]
    exact hzb.addText ..
  have hysettled : y.context.isSettled = true := by rw [hyc]; rfl
  refine ⟨?_, fun block => ?_⟩
  · rw [endBranch_of_settleAtEnd hxclosed, endBranch_of_closed hyclosed hysettled, hsettle]
    exact habort
  · rw [endBlock_of_closed hyclosed hysettled (.inr (by rw [hyc]; rfl))]
    unfold endBlock
    rw [checkContext_of_not_raw (by rw [hxc]; rfl), closeDrafts_of_settleAtEnd hxclosed, hsettle]
    exact habort

/-- Lasting text is read as content.  At the end it may be a tag that never began. -/
theorem read_lastText (run : RawRun) (pos : Nat) (held : Option Held) {t : Text} {final : Context}
    (h : b.context.afterLastText? t = some final) (hne : held = none → t ≠ [])
    (hclosed : b.Closed) :
    (b.read run pos held t).Alike
        (({ b with context := final } : Assembly).addText (Held.textOf held ++ t) default)
      ∨ b.context.afterText? t = none ∧ (b.read run pos held t).EndsAlike
        (({ b with context := final } : Assembly).addText (Held.textOf held ++ t) default) := by
  induction b, pos, held, t using read.induct run with
  | case1 b pos held =>
    rw [Context.afterLastText?, Option.some.injEq] at h
    subst h
    rw [read, List.append_nil]
    cases held with
    | none => exact absurd rfl (hne rfl)
    | some k => exact .inl ((Alike.refl b).addText ..)
  | case2 b pos held c cs l text stop faultStop b' hm ih =>
    rw [Context.afterLastText?] at h
    split at h
    · next hangle =>
      obtain ⟨hb, hcs⟩ := hangle
      simp only [l] at hm
      rw [hb] at hm
      rcases hcs with hcs | hcs <;> cases hcs <;> cases hm
    dsimp only at h
    split at h
    · next hclean =>
      have hfault : l.fault = none := by
        rw [Bool.and_eq_true, Option.isNone_iff_eq_none, Option.isNone_iff_eq_none] at hclean
        exact hclean.2
      have hb' : b' = b := by
        show b.reportLexeme _ l = b
        unfold reportLexeme
        rw [hfault]
      rw [hb'] at ih
      have hheld : Held.textOf (some (Held.add held pos text)) ++ (c :: cs).drop l.width
          = Held.textOf held ++ c :: cs := by
        rw [Held.textOf, Held.textOf_add, List.append_assoc, List.take_append_drop]
      have hstep := ih (by rw [enter_context]; exact h) (by rintro ⟨⟩) (hclosed.enter ..)
      rw [hheld, enter_context] at hstep
      rw [read_content hclean, Context.afterText?, if_pos hclean]
      have hsame := Alike.addText ((enter_alike b l.next (run.locate pos)).setContext final)
        (Held.textOf held ++ c :: cs) default default
      exact hstep.imp (·.trans hsame) fun h => ⟨h.1, h.2.trans hsame.endsAlike⟩
    · cases h
  | case3 b pos held c cs l text stop faultStop b' m hm ih =>
    rw [Context.afterLastText?] at h
    simp only [l] at hm
    split at h
    · next hangle =>
      cases h
      obtain ⟨hb, hcs⟩ := hangle
      refine .inr ⟨by rw [Context.afterText?, hm]; rfl, ?_⟩
      have hpcdata : ({ b with context := .pcdata } : Assembly) = b := by rw [← hb]
      have hlexeme : ∃ close, b.context.lexeme c cs
            = Lexeme.marking (.tagStart close) (.tagName .empty) (cs.length + 1)
          ∧ c :: cs = if close then ['<', '/'] else ['<'] := by
        rw [hb]
        rcases hcs with hcs | hcs <;> cases hcs
        · exact ⟨false, rfl, rfl⟩
        · exact ⟨true, rfl, rfl⟩
      obtain ⟨close, hlexeme, hangle⟩ := hlexeme
      rw [hpcdata, read_cons_mark hlexeme, List.drop_of_length_le (by simp), read]
      have hcontent : b.context.isContent = true := by rw [hb]; rfl
      cases held with
      | none =>
        rw [Held.textOf, List.nil_append, hangle]
        exact endsAlike_angle hclosed hb close _ _
      | some k =>
        rw [Held.textOf, hangle]
        refine (endsAlike_angle (hclosed.addText hcontent _ _)
          ((addText_context ..).trans hb) close _ _).trans (Alike.endsAlike ?_)
        exact b.addText_addText ..
    · dsimp only at h
      rw [hm] at h
      cases h

theorem read_lasting (run : RawRun) {t : Text} {final : Context}
    (h : b.context.afterText? t = some final) (ht : t ≠ []) (hclosed : b.Closed) :
    (b.read run 0 none t).Alike (({ b with context := final } : Assembly).addText t default) := by
  rcases read_lastText run 0 none
    (Context.afterLastText?_of_afterText? h) (fun _ => ht) hclosed with hread | ⟨hnone, -⟩
  · exact hread
  · rw [hnone] at h
    cases h

/-- Lasting text that has been read is one node, where no text stands before it. -/
theorem addText_lasting {t : Text} (hb : b.context.isContent = true)
    (hlast : ∀ m ∈ b.out.head?, m.rawText? = none) (id : NodeId) (location location' : Span) :
    (b.addText t location).Alike { b with out := .raw id location' t :: b.out } := by
  unfold Assembly.addText
  rw [content_of_isContent hb]
  split
  · next id' before t' nodes hout =>
    have := hlast (.raw id' before t') (by rw [hout]; rfl)
    cases this
  · rw [setContent_of_isContent (by exact hb)]
    simp [Alike, bare, Node.bare]

theorem readRun_lasting {t : Text} {final : Context} (h : b.context.afterText? t = some final)
    (ht : t ≠ []) (hhere : b.context.isHome = true) (hclosed : b.Closed)
    (hlast : ∀ m ∈ b.out.head?, m.rawText? = none) (id : NodeId) (location location' : Span) :
    (b.readRun (.single t location)).Alike
      { b with out := .raw id location' t :: b.out, context := final } := by
  have hread := read_lasting (b := { b with ledger := b.ledger.countRun }) (.single t location) h ht
    hclosed
  have hfinal := (Context.isContent_of_afterText? ht h hhere).2
  unfold readRun
  rw [RawRun.text_single]
  exact (Alike.setOffset hread _ b.offset).trans
    (addText_lasting (b := { b with ledger := b.ledger.countRun, context := final }) hfinal
      hlast ..)

theorem readRun_lastText {t : Text} {final : Context} (h : b.context.afterLastText? t = some final)
    (ht : t ≠ []) (hhere : b.context.isHome = true) (hclosed : b.Closed)
    (hlast : ∀ m ∈ b.out.head?, m.rawText? = none) (id : NodeId) (location location' : Span) :
    (b.readRun (.single t location)).EndsAlike
      { b with out := .raw id location' t :: b.out, context := final } := by
  have hread := read_lastText (b := { b with ledger := b.ledger.countRun }) (.single t location) 0
    none h (fun _ => ht) hclosed
  have hfinal := (Context.isContent_of_afterLastText? ht h hhere).2
  have hends := hread.elim Alike.endsAlike And.right
  have hoffset (x : Assembly) (o : Nat) : ({ x with offset := o } : Assembly).EndsAlike x :=
    ((Alike.refl x).setOffset o x.offset).endsAlike
  unfold readRun
  rw [RawRun.text_single]
  exact (hoffset _ _).trans (hends.trans (Alike.endsAlike
    (addText_lasting (b := { b with ledger := b.ledger.countRun, context := final }) hfinal
      hlast ..)))

/-- Where no draft is open, a node that is not raw text is finished where it is put: as content, or
between attributes if it is no name there. -/
theorem place_of_closed {n : Node} (h : b.Closed) (hb : b.context.isContent = true
      ∨ b.context = .beforeAttrName ∧ n.isPrinting = false) :
    (b.place n).Alike
      { b with out := n :: b.out, context := (contextAfter? b.context n).getD b.context } := by
  rcases hb with hb | ⟨hb, hn⟩
  · have hplace : b.place n = b.placeContent n := by
      unfold place
      cases hc : b.context <;> rw [hc] at hb <;> first | rfl | cases hb
    have hout : b.addContent n = { b with out := n :: b.out } := by
      rw [addContent, content_of_isContent hb, setContent_of_isContent hb]
    rw [hplace]
    unfold placeContent
    cases hnext : contextAfter? b.context n with
    | none =>
      dsimp only
      rw [hout]
      exact .refl _
    | some next =>
      dsimp only
      rw [hout]
      exact enter_alike _ _ _
  · obtain ⟨l, e, c, i, o, t, a, v, m, f, r, k⟩ := b
    dsimp only at hb
    subst hb
    obtain ⟨rfl, rfl, rfl, rfl⟩ := h
    unfold place placeInTag
    rw [hn, contextAfter?_eq_none (by simp) (by simp)]
    exact .refl _

theorem place_of_home {n : Node} (h : b.Closed) (hb : b.context.isHome = true)
    (hn : n.isPrinting = false) :
    (b.place n).Alike
      { b with out := n :: b.out, context := (contextAfter? b.context n).getD b.context } :=
  place_of_closed h ((Bool.or_eq_true_iff.mp hb).imp_right fun hc => ⟨beq_iff_eq.mp hc, hn⟩)

/-- So is control flow. -/
theorem placeFlow_of_closed (h : b.Closed) (hb : b.context.isHome = true) (f : Flow)
    (exit : Context) :
    (b.placeFlow f exit).Alike { b with out := .flow f :: b.out, context := exit } := by
  unfold Context.isHome at hb
  rcases Bool.or_eq_true_iff.mp hb with hb | hb
  · have hplace : b.placeFlow f exit = (b.addContent (.flow f)).enter exit f.location.start := by
      unfold placeFlow
      cases hc : b.context <;> rw [hc] at hb <;> first | rfl | cases hb
    rw [hplace, addContent, content_of_isContent hb, setContent_of_isContent hb]
    exact enter_alike _ _ _
  · rw [beq_iff_eq] at hb
    have hout : b.addAmongAttrs (.flow f) = b.addOut (.flow f) := by
      unfold addAmongAttrs
      rw [h.1]
    unfold placeFlow
    rw [hb, hout]
    exact enter_alike (b.addOut (.flow f)) exit _

end Assembly

/-! ## 3. Branches that agree -/

theorem reconcile_of_agreed? {head : FlowHead} {entry exit : Context} {exits : Exits}
    (h : agreed? head entry exits = some exit) (l : Ledger) (location : Span) :
    reconcile l location head entry exits = (exit, l) := by
  have hloop (command : String) (exits : Exits) (h : ∀ e ∈ exits, e.2.kind = entry.kind) :
      reconcileLoop l location command entry exits = l := by
    induction exits with
    | nil => rw [reconcileLoop]
    | cons e exits ih =>
      obtain ⟨kind, exit⟩ := e
      unfold reconcileLoop
      rw [if_pos (h _ List.mem_cons_self)]
      exact ih fun e' he' => h e' (List.mem_cons_of_mem _ he')
  unfold agreed? at h
  unfold reconcile
  split at h
  · next hhead =>
    rw [if_pos hhead]
    split at h
    · next hall =>
      cases h
      rw [hloop _ _ fun e he => beq_iff_eq.mp (List.all_eq_true.mp hall e he)]
    · cases h
  · next hhead =>
    rw [if_neg hhead]
    dsimp only
    generalize (exits.map Prod.snd
      ++ if exits.any fun e => e.1 == .default then [] else [entry]) = all at h ⊢
    cases all with
    | nil =>
      cases h
      rfl
    | cons first others =>
      dsimp only at h ⊢
      split at h
      · next hall =>
        cases h
        unfold reconcileChoice
        have hnone : (exit :: others).find? (fun other => other.kind != exit.kind) = none := by
          refine List.find?_eq_none.mpr fun other hother => ?_
          rcases List.mem_cons.mp hother with rfl | hother
          · simp
          · simpa using List.all_eq_true.mp hall other hother
        rw [hnone]
      · cases h

/-- Branches agree on a context in which one of them ends, or on the one before them. -/
theorem agreed?_mem {head : FlowHead} {entry exit : Context} {exits : Exits}
    (h : agreed? head entry exits = some exit) : exit = entry ∨ ∃ e ∈ exits, e.2 = exit := by
  unfold agreed? at h
  split at h
  · split at h
    · exact .inl (Option.some.inj h).symm
    · cases h
  · split at h
    · exact .inl (Option.some.inj h).symm
    · next first others hexits =>
      split at h
      · cases h
        have hmem : exit ∈ exits.map Prod.snd
            ++ if exits.any fun e => e.1 == .default then [] else [entry] := by
          rw [hexits]
          exact List.mem_cons_self
        rcases List.mem_append.mp hmem with hmem | hmem
        · exact .inr (List.mem_map.mp hmem)
        · split at hmem
          · cases hmem
          · exact .inl (List.mem_singleton.mp hmem)
      · cases h

/-! ## 4. The pass on lasting nodes -/

open Assembly

mutual

/-- A lasting node is finished where it is. -/
theorem Node.feed_lasting : ∀ (n : Node) {b : Assembly} {room : Nat} {next : Context},
    n.rawText? = none → b.Closed → b.context.isHome = true →
    b.ledger.depth + room ≤ b.ledger.config.maxDepth →
    n.lastingFrom? room b.context = some next →
    (feedNode b n).Alike { b with out := n :: b.out, context := next } ∧ next.isHome = true
  | .raw id loc t, b, room, next, hn, _, _, _, _ => by cases hn
  | .print id loc e, b, room, next, _, hclosed, hhere, _, h => by
    rw [Node.lastingFrom?] at h
    split at h
    · next hcontent =>
      cases h
      rw [feedNode]
      · exact ⟨(reach_alike _ _).trans (place_of_closed hclosed (.inl hcontent)), hhere⟩
      all_goals simp
    · cases h
  | .call id loc callee params, b, room, next, _, hclosed, hhere, hroom, h => by
    rw [Node.lastingFrom?] at h
    split at h
    · next hlast =>
      cases h
      obtain ⟨hcontent, hparams⟩ := Bool.and_eq_true_iff.mp hlast
      obtain ⟨hbare, hledger⟩ := rewriteParams_lasting params hroom hparams
      have hsame : ({ b with ledger := (rewriteParams b.ledger params).2 } : Assembly).Alike b :=
        (Alike.refl b).setLedger hledger
      rw [feedNode]
      dsimp only
      have hn : Node.bare (.call id loc callee (rewriteParams b.ledger params).1)
          = Node.bare (.call id loc callee params) := by rw [Node.bare, Node.bare, hbare]
      exact ⟨(reach_alike _ _).trans ((hsame.place hn).trans
        (place_of_closed hclosed (.inl hcontent))), hhere⟩
    · cases h
  | .binding id loc var value, b, room, next, _, hclosed, hhere, hroom, h => by
    rw [Node.lastingFrom?] at h
    split at h
    · next hlast =>
      cases h
      obtain ⟨hbare, hledger⟩ := value.rewrite_lasting .letContent loc hroom hlast
      have hsame : ({ b with ledger := (rewriteValue b.ledger .letContent loc value).2 }
          : Assembly).Alike b := (Alike.refl b).setLedger hledger
      rw [feedNode]
      dsimp only
      have hn : Node.bare (.binding id loc var (rewriteValue b.ledger .letContent loc value).1)
          = Node.bare (.binding id loc var value) := by rw [Node.bare, Node.bare, hbare]
      exact ⟨(reach_alike _ _).trans ((hsame.place hn).trans (place_of_home hclosed hhere rfl)),
        hhere⟩
    · cases h
  | .flow f, b, room, next, _, hclosed, hhere, hroom, h => by
    rw [Node.lastingFrom?] at h
    have hsettled : b.context.isSettled = true := Context.isSettled_of_isHome hhere
    obtain ⟨hflow, hexit, hledger, hnext⟩ := f.rewrite_lasting hhere hroom h
    have hsame : ({ b with ledger := (rewriteFlow b.ledger b.context f).2.2 } : Assembly).Alike b :=
      (Alike.refl b).setLedger hledger
    rw [feedNode, settle_of_isSettled hsettled]
    dsimp only
    rw [hexit]
    exact ⟨(reach_alike _ _).trans ((hsame.placeFlow hflow next).trans
      (placeFlow_of_closed hclosed hhere f next)), hnext⟩
  | .openTag .., b, room, next, _, hclosed, hhere, _, h
  | .closeTag .., b, room, next, _, hclosed, hhere, _, h
  | .attr .., b, room, next, _, hclosed, hhere, _, h
  | .attrValue .., b, room, next, _, hclosed, hhere, _, h
  | .comment .., b, room, next, _, hclosed, hhere, _, h => by
    have hnext := Context.isHome_contextAfter? hhere
    rw [Node.lastingFrom?, Option.some.injEq] at h
    · subst h
      rw [feedNode]
      · exact ⟨(reach_alike _ _).trans (place_of_home hclosed hhere rfl), hnext _⟩
      all_goals simp
    all_goals simp

/-- Lasting nodes are finished where they are. -/
theorem feedNodes_lasting : ∀ (nodes : List Node) {b : Assembly} {room : Nat} {final : Context},
    b.Closed → b.context.isHome = true → b.ledger.depth + room ≤ b.ledger.config.maxDepth →
    (∀ n ∈ nodes.head?, n.rawText?.isSome = true → ∀ m ∈ b.out.head?, m.rawText? = none) →
    lastingFrom? room b.context nodes = some final →
    (feedNodes b none nodes).EndsAlike { b with out := nodes.reverse ++ b.out, context := final }
      ∧ final.isHome = true
  | [], b, room, final, _, hhere, _, _, h => by
    rw [lastingFrom?, Option.some.injEq] at h
    subst h
    rw [feedNodes]
    exact ⟨(Alike.refl _).endsAlike, hhere⟩
  | n :: nodes, b, room, final, hclosed, hhere, hroom, hapart, h => by
    rw [lastingFrom?] at h
    cases hraw : n.rawText? with
    | none =>
      have honly : onlyText? (n :: nodes) = none := by
        cases n <;> first | rfl | cases hraw
      rw [honly, hraw] at h
      dsimp only at h
      obtain ⟨next, hn, hnodes⟩ := Option.bind_eq_some_iff.mp h
      obtain ⟨hfeed, hhome⟩ := n.feed_lasting hraw hclosed hhere hroom hn
      obtain ⟨hread, hfinal⟩ := feedNodes_lasting nodes
        (b := { b with out := n :: b.out, context := next }) hclosed hhome hroom
        (fun _ _ _ m hm => by
          obtain rfl : n = m := Option.some.inj hm
          exact hraw) hnodes
      rw [feedNodes_cons_node hraw]
      refine ⟨(hfeed.feedNodes nodes).endsAlike.trans (hread.trans (Alike.endsAlike ?_)), hfinal⟩
      simp [Alike]
    | some t =>
      obtain ⟨id, loc, rfl⟩ := Node.eq_raw_of_rawText? hraw
      have hlast := hapart _ rfl rfl
      rw [feedNodes_cons_text (t := t) rfl]
      dsimp only [collect]
      cases nodes with
      | nil =>
        dsimp only [onlyText?] at h
        split at h
        · cases h
        · next ht =>
          have ht : t ≠ [] := by simpa using ht
          have hcontent := (Context.isContent_of_afterLastText? ht h hhere).2
          rw [feedNodes_run _ _ (fun _ hm => by cases hm), feedNodes]
          exact ⟨readRun_lastText h ht hhere hclosed hlast id loc loc,
            by simp [Context.isHome, hcontent]⟩
      | cons m nodes =>
        dsimp only [onlyText?] at h
        split at h
        · next hnext =>
          obtain ⟨next, hn, hnodes⟩ := Option.bind_eq_some_iff.mp h
          rw [Node.lastingFrom?] at hn
          split at hn
          · cases hn
          · next ht =>
            have ht : t ≠ [] := by simpa using ht
            have hcontent := (Context.isContent_of_afterText? ht hn hhere).2
            have hheads : ∀ k ∈ (m :: nodes).head?, k.rawText? = none := by
              intro k hk
              obtain rfl : m = k := Option.some.inj hk
              simpa [Node.rawText?] using hnext
            obtain ⟨hread, hhome⟩ := feedNodes_lasting (m :: nodes)
              (b := { b with out := .raw id loc t :: b.out, context := next }) hclosed
              (by simp [Context.isHome, hcontent]) hroom (fun k hk hraw => by
                rw [hheads k hk] at hraw
                cases hraw) hnodes
            rw [feedNodes_run _ _ hheads]
            refine ⟨(Alike.endsAlike ((readRun_lasting hn ht hhere hclosed hlast id loc
              loc).feedNodes (m :: nodes))).trans (hread.trans (Alike.endsAlike ?_)), hhome⟩
            simp [Alike]
        · cases h

/-- Lasting control flow stays. -/
theorem Flow.rewrite_lasting : ∀ (f : Flow) {l : Ledger} {room : Nat} {here next : Context},
    here.isHome = true → l.depth + room ≤ l.config.maxDepth →
    f.lastingFrom? room here = some next →
    (rewriteFlow l here f).1.bare = f.bare ∧ (rewriteFlow l here f).2.1 = next
      ∧ (rewriteFlow l here f).2.2.Alike l ∧ next.isHome = true
  | ⟨id, loc, head, branches⟩, l, room, here, next, hhere, hroom, h => by
    rw [Flow.lastingFrom?] at h
    split at h
    · cases h
    · next hpos =>
      obtain ⟨exits, hexits, hagreed⟩ := Option.bind_eq_some_iff.mp h
      have hdeep : l.depth + 1 + (room - 1) ≤ l.config.maxDepth := by omega
      obtain ⟨hbranches, hsame, hledger, hhome⟩ := rewriteBranches_lasting branches
        (l := { l with depth := l.depth + 1 }) loc.start hhere hdeep hexits
      rw [rewriteFlow]
      dsimp only
      rw [if_neg (by omega), hsame, reconcile_of_agreed? hagreed]
      refine ⟨by rw [Flow.bare, Flow.bare, hbranches], rfl, hledger.setDepth l.depth, ?_⟩
      rcases agreed?_mem hagreed with rfl | ⟨e, he, rfl⟩
      · exact hhere
      · exact hhome e he

/-- So do lasting branches. -/
theorem rewriteBranches_lasting : ∀ (branches : List Branch) {l : Ledger} {room : Nat}
    {here : Context} {exits : Exits} (offset : Nat), here.isHome = true →
    l.depth + room ≤ l.config.maxDepth → lastingExits? room here branches = some exits →
    bareBranches (rewriteBranches l here offset branches).1 = bareBranches branches
      ∧ (rewriteBranches l here offset branches).2.1 = exits
      ∧ (rewriteBranches l here offset branches).2.2.Alike l
      ∧ ∀ e ∈ exits, e.2.isHome = true
  | [], l, room, here, exits, offset, _, _, h => by
    rw [lastingExits?, Option.some.injEq] at h
    subst h
    rw [rewriteBranches]
    exact ⟨rfl, rfl, rfl, nofun⟩
  | ⟨id, kind, nodes⟩ :: branches, l, room, here, exits, offset, hhere, hroom, h => by
    rw [lastingExits?] at h
    obtain ⟨exit, hexit, h⟩ := Option.bind_eq_some_iff.mp h
    obtain ⟨later, hlater, rfl⟩ := Option.map_eq_some_iff.mp h
    have hfirst : (rewriteBranch l here offset ⟨id, kind, nodes⟩).1.bare
          = Branch.bare ⟨id, kind, nodes⟩
        ∧ (rewriteBranch l here offset ⟨id, kind, nodes⟩).1.kind = kind
        ∧ (rewriteBranch l here offset ⟨id, kind, nodes⟩).2.1 = exit
        ∧ (rewriteBranch l here offset ⟨id, kind, nodes⟩).2.2.Alike l ∧ exit.isHome = true := by
      obtain ⟨hread, hhome⟩ := feedNodes_lasting nodes
        (b := .start l.countBranch here true offset) ⟨rfl, rfl, rfl, rfl⟩ hhere hroom
        (fun _ _ _ m hm => by cases hm) hexit
      have hend := hread.1
      rw [endBranch_of_closed (b := { start l.countBranch here true offset with
        out := nodes.reverse ++ (start l.countBranch here true offset).out
        context := exit }) ⟨rfl, rfl, rfl, rfl⟩ (Context.isSettled_of_isHome hhome)] at hend
      rw [rewriteBranch]
      refine ⟨?_, rfl, hend.context, hend.ledger, hhome⟩
      dsimp only
      rw [Branch.bare, Branch.bare, hend.nodes]
      simp [Assembly.nodes, start]
    obtain ⟨hbare, hkind, hsame, hledger, hhome⟩ := hfirst
    rw [rewriteBranches]
    dsimp only
    generalize rewriteBranch l here offset ⟨id, kind, nodes⟩ = r at *
    obtain ⟨hbares, hexits, hledger', hhomes⟩ := rewriteBranches_lasting branches (l := r.2.2)
      offset hhere (by rw [hledger.depth, hledger.config]; exact hroom) hlater
    refine ⟨by rw [bareBranches, bareBranches, hbare, hbares], ?_, hledger'.trans hledger, ?_⟩
    · rw [hkind, hsame, hexits]
    · intro e he
      rcases List.mem_cons.mp he with rfl | he
      · exact hhome
      · exact hhomes e he

/-- Lasting content blocks stay. -/
theorem Value.rewrite_lasting : ∀ (value : Value) {l : Ledger} {room : Nat} (block : BlockKind)
    (location : Span), l.depth + room ≤ l.config.maxDepth → value.isLasting room = true →
    (rewriteValue l block location value).1.bare = value.bare
      ∧ (rewriteValue l block location value).2.Alike l
  | .expr e, l, room, block, location, _, _ => by
    rw [rewriteValue]
    exact ⟨rfl, rfl⟩
  | .content kind nodes, l, room, block, location, hroom, h => by
    rw [Value.isLasting] at h
    rw [rewriteValue]
    cases hentry : Context.entry? (declaredOrHtml kind) with
    | some entry =>
      rw [hentry] at h
      dsimp only at h ⊢
      obtain ⟨exit, hexit, hraw⟩ := (Option.any_eq_true _ _).mp h
      have hhere : entry.isHome = true := Context.isHome_of_entry? hentry
      obtain ⟨hread, hhome⟩ := feedNodes_lasting nodes
        (b := .start l.countBlock entry false location.start) ⟨rfl, rfl, rfl, rfl⟩
        hhere hroom (fun _ _ _ m hm => by cases hm) hexit
      have hend := hread.2 block
      rw [endBlock_of_closed (b := { start l.countBlock entry false location.start with
        out := nodes.reverse ++ (start l.countBlock entry false location.start).out
        context := exit }) ⟨rfl, rfl, rfl, rfl⟩ (Context.isSettled_of_isHome hhome)
        ((Bool.or_eq_true_iff.mp hraw).imp beq_iff_eq.mp (by simp))] at hend
      refine ⟨?_, hend.ledger⟩
      rw [Value.bare, Value.bare, hend.nodes]
      simp [Assembly.nodes, start]
    | none =>
      rw [hentry] at h
      obtain ⟨hbare, hledger⟩ := enterNodes_lasting nodes (l := l.countBlock) hroom h
      exact ⟨by rw [Value.bare, Value.bare, hbare], hledger⟩

theorem rewriteParams_lasting : ∀ (params : List Param) {l : Ledger} {room : Nat},
    l.depth + room ≤ l.config.maxDepth → paramsLast room params = true →
    bareParams (rewriteParams l params).1 = bareParams params ∧ (rewriteParams l params).2.Alike l
  | [], l, room, _, _ => by
    rw [rewriteParams]
    exact ⟨rfl, rfl⟩
  | ⟨id, loc, name, value⟩ :: params, l, room, hroom, h => by
    rw [paramsLast, Bool.and_eq_true] at h
    obtain ⟨hbare, hledger⟩ := value.rewrite_lasting .paramContent loc hroom h.1
    rw [rewriteParams, rewriteParam]
    dsimp only
    generalize rewriteValue l .paramContent loc value = r at *
    obtain ⟨hbares, hledger'⟩ := rewriteParams_lasting params (l := r.2)
      (by rw [hledger.depth, hledger.config]; exact hroom) h.2
    exact ⟨by rw [bareParams, bareParams, Param.bare, Param.bare, hbare, hbares],
      hledger'.trans hledger⟩

theorem enterNodes_lasting : ∀ (nodes : List Node) {l : Ledger} {room : Nat},
    l.depth + room ≤ l.config.maxDepth → blocksLast room nodes = true →
    bare (enterNodes l nodes).1 = bare nodes ∧ (enterNodes l nodes).2.Alike l
  | [], l, room, _, _ => by
    rw [enterNodes]
    exact ⟨rfl, rfl⟩
  | n :: nodes, l, room, hroom, h => by
    rw [blocksLast, Bool.and_eq_true] at h
    obtain ⟨hbare, hledger⟩ := n.enter_lasting hroom h.1
    rw [enterNodes]
    dsimp only
    generalize enterNode l n = r at *
    obtain ⟨hbares, hledger'⟩ := enterNodes_lasting nodes (l := r.2)
      (by rw [hledger.depth, hledger.config]; exact hroom) h.2
    exact ⟨by rw [bare_cons, bare_cons, hbare, hbares], hledger'.trans hledger⟩

theorem Node.enter_lasting : ∀ (n : Node) {l : Ledger} {room : Nat},
    l.depth + room ≤ l.config.maxDepth → n.blocksLast room = true →
    (enterNode l n).1.bare = n.bare ∧ (enterNode l n).2.Alike l
  | .call id loc callee params, l, room, hroom, h => by
    rw [Node.blocksLast] at h
    obtain ⟨hbare, hledger⟩ := rewriteParams_lasting params hroom h
    rw [enterNode]
    exact ⟨by rw [Node.bare, Node.bare, hbare], hledger⟩
  | .binding id loc var value, l, room, hroom, h => by
    rw [Node.blocksLast] at h
    obtain ⟨hbare, hledger⟩ := value.rewrite_lasting .letContent loc hroom h
    rw [enterNode]
    exact ⟨by rw [Node.bare, Node.bare, hbare], hledger⟩
  | .flow f, l, room, hroom, h => by
    rw [Node.blocksLast] at h
    obtain ⟨hbare, hledger⟩ := f.enter_lasting hroom h
    rw [enterNode]
    exact ⟨by rw [Node.bare, Node.bare, hbare], hledger⟩
  | .raw .., l, room, _, _ | .print .., l, room, _, _ | .openTag .., l, room, _, _
  | .closeTag .., l, room, _, _ | .attr .., l, room, _, _ | .attrValue .., l, room, _, _
  | .comment .., l, room, _, _ => by
    rw [enterNode]
    · exact ⟨rfl, rfl⟩
    all_goals simp

theorem Flow.enter_lasting : ∀ (f : Flow) {l : Ledger} {room : Nat},
    l.depth + room ≤ l.config.maxDepth → f.blocksLast room = true →
    (enterFlow l f).1.bare = f.bare ∧ (enterFlow l f).2.Alike l
  | ⟨id, loc, head, branches⟩, l, room, hroom, h => by
    rw [Flow.blocksLast] at h
    obtain ⟨hbare, hledger⟩ := enterBranches_lasting branches hroom h
    rw [enterFlow]
    exact ⟨by rw [Flow.bare, Flow.bare, hbare], hledger⟩

theorem enterBranches_lasting : ∀ (branches : List Branch) {l : Ledger} {room : Nat},
    l.depth + room ≤ l.config.maxDepth → branchesBlocksLast room branches = true →
    bareBranches (enterBranches l branches).1 = bareBranches branches
      ∧ (enterBranches l branches).2.Alike l
  | [], l, room, _, _ => by
    rw [enterBranches]
    exact ⟨rfl, rfl⟩
  | ⟨id, kind, nodes⟩ :: branches, l, room, hroom, h => by
    rw [branchesBlocksLast, Bool.and_eq_true] at h
    obtain ⟨hbare, hledger⟩ := enterNodes_lasting nodes hroom h.1
    rw [enterBranches, enterBranch]
    dsimp only
    generalize enterNodes l nodes = r at *
    obtain ⟨hbares, hledger'⟩ := enterBranches_lasting branches (l := r.2)
      (by rw [hledger.depth, hledger.config]; exact hroom) h.2
    exact ⟨by rw [bareBranches, bareBranches, Branch.bare, Branch.bare, hbare, hbares],
      hledger'.trans hledger⟩

end

/-! ## 5. Templates -/

/-- The template is left as it is under a config. -/
def Template.isLasting (config : Config) (t : Template) : Bool :=
  Value.isLasting config.maxDepth (.content (some t.kind) t.nodes)

/-- **Lasting templates are rewritten to themselves.**  Nothing is reported, and the nodes come out
as they are but for places; the outline and the source text are the same. -/
theorem Template.rewrite_lasting {t : Template} {config : Config} (h : t.isLasting config = true)
    (ids : IdSource) :
    (t.rewrite config ids).diagnostics = []
      ∧ bare (t.rewrite config ids).result.nodes = bare t.nodes
      ∧ shape (t.rewrite config ids).result.nodes = shape t.nodes
      ∧ source (t.rewrite config ids).result.nodes = source t.nodes := by
  obtain ⟨hbare, hledger⟩ := Value.rewrite_lasting (.content (some t.kind) t.nodes)
    (l := .start config ids) .template t.location (Nat.le_of_eq (Nat.zero_add _)) h
  have hnodes : bare (t.rewrite config ids).result.nodes = bare t.nodes := by
    unfold Template.rewrite rewriteBlock
    dsimp only
    generalize rewriteValue (.start config ids) .template t.location (.content (some t.kind) t.nodes)
      = r at *
    obtain ⟨value, ledger⟩ := r
    cases value with
    | expr e => simp [Value.bare] at hbare
    | content kind nodes =>
      simp only [Value.bare, Value.content.injEq] at hbare
      exact hbare.2
  have hquiet : (t.rewrite config ids).diagnostics = [] := by
    unfold Template.rewrite rewriteBlock
    have hbare : List.map Diagnostic.bare _ = [] := congrArg Ledger.diagnostics hledger
    exact List.reverse_eq_nil_iff.mpr (List.map_eq_nil_iff.mp hbare)
  refine ⟨hquiet, hnodes, ?_, ?_⟩
  · rw [← shape_bare, hnodes, shape_bare]
  · rw [← source_bare, hnodes, source_bare]

end TemplateMarkup
