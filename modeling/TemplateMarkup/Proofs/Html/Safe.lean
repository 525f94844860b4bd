/-
# No partial step fails

The guarded pass gives what the pass gives, for every tree: no offset lies outside its text or inside
a character, the reading loop always moves on and ends within a turn more than there is work, and a
node is placed anew at most once.

What carries the proof is that in a tag name a tag is under construction (`Assembly.hasTag`).  It is
kept by reading and by placing, whatever has been reported; control flow settles names first, and no
branch ends in a name, so branches neither begin nor leave their surroundings in one.
-/
import Mathlib.Control.Basic
import Mathlib.Data.Option.Basic
import TemplateMarkup.Proofs.Html.Footing
import TemplateMarkup.Proofs.Html.Guarded
import TemplateMarkup.Proofs.Html.Stretches

namespace TemplateMarkup

/-! ## 1. Guards and bytes -/

theorem guard_eq_some {p : Prop} [Decidable p] (h : p) : (guard p : Option Unit) = some () :=
  if_pos h

namespace Text

theorem dropBytes?_size : ∀ u t : Text, dropBytes? (size u) (u ++ t) = some t
  | [], t => by cases t <;> rfl
  | c :: u, t => by
    obtain ⟨n, hn⟩ : ∃ n, c.utf8Size = n + 1 := ⟨c.utf8Size - 1, by have := c.utf8Size_pos; omega⟩
    rw [size_cons, List.cons_append, hn, Nat.add_right_comm, dropBytes?, hn, if_pos (by omega),
      Nat.add_right_comm, Nat.add_sub_cancel_left, dropBytes?_size u t]

/-- A part of a text is cut out of it. -/
theorem slice?_size (u v t : Text) :
    slice? (size u) (size (u ++ v)) (u ++ (v ++ t)) = some v := by
  have hafter : dropBytes? (size (u ++ v)) (u ++ (v ++ t)) = some t := by
    rw [← List.append_assoc]
    exact dropBytes?_size ..
  unfold slice?
  rw [dropBytes?_size, hafter]
  simp

end Text

theorem RawRun.location?_eq (r : RawRun) (start stop : Nat) :
    r.location? start stop = some (r.location start stop) := by
  unfold location? Span.between?
  rw [dif_pos (Nat.le_max_left ..)]
  rfl

/-! ## 2. The tag of a tag name -/

namespace Context

theorem isTagName_of_isSettled {here : Context} (h : here.isSettled = true) :
    here.isTagName = false := by
  cases here <;> first | rfl | cases h

theorem isTagName_of_isContent {here : Context} (h : here.isContent = true) :
    here.isTagName = false := isTagName_of_isSettled (isSettled_of_isContent h)

end Context

namespace Assembly

theorem hasTag_of_context {b : Assembly} (h : b.context.isTagName = false) : b.hasTag = true := by
  unfold hasTag
  rw [h]
  rfl

theorem hasTag_of_isSome {b : Assembly} (h : b.tag.isSome = true) : b.hasTag = true := by
  unfold hasTag
  rw [h, Bool.or_true]

theorem isSome_of_hasTag {b : Assembly} (h : b.hasTag = true) (hb : b.context.isTagName = true) :
    b.tag.isSome = true := by
  unfold hasTag at h
  rwa [hb, Bool.not_true, Bool.false_or] at h

/-- Neither the context nor the tag changes. -/
theorem hasTag_congr {b b' : Assembly} (h : b.hasTag = true) (hc : b'.context = b.context)
    (ht : b'.tag = b.tag) : b'.hasTag = true := by
  unfold hasTag at h ⊢
  rwa [hc, ht]

@[simp] theorem setContent_tag (b : Assembly) (nodes : List Node) :
    (b.setContent nodes).tag = b.tag := by unfold setContent; split <;> rfl

@[simp] theorem addText_tag (b : Assembly) (text : Text) (location : Span) :
    (b.addText text location).tag = b.tag := by unfold addText; split <;> simp

theorem reportLexeme_tag (b : Assembly) (location : Span) (l : Lexeme) :
    (b.reportLexeme location l).tag = b.tag := by rw [reportLexeme_eq]

/-- A tag that is given up leaves content behind. -/
theorem isContent_abortTag {b : Assembly} (h : b.tag.isSome = true) :
    b.abortTag.context.isContent = true := by
  obtain ⟨tag, ht⟩ := Option.isSome_iff_exists.mp h
  rw [abortTag_context ht]
  unfold TagDraft.outside
  split <;> rfl

/-- So does a tag that ends. -/
theorem isContent_closeTag {b : Assembly} (h : b.tag.isSome = true) (selfClosing : Bool)
    (stop : Nat) (bodyFollows : Bool) :
    (b.closeTag selfClosing stop bodyFollows).context.isContent = true := by
  obtain ⟨tag, ht⟩ := Option.isSome_iff_exists.mp h
  unfold closeTag
  rw [ht]
  dsimp only
  split
  · exact isContent_abortTag h
  · split
    · rw [(addCloseTag_drafts ..).2.1]
      rfl
    · exact (addOpenTag_drafts ..).2.1

/-- **A mark that leads to a tag name has begun a tag or goes on in one.** -/
theorem hasTag_apply {b : Assembly} {c : Char} {l : Lexeme} {m : Mark} (text : Text)
    (location : Span) (h : b.hasTag = true) (hl : Context.Move b.context c l)
    (hm : l.mark = some m) : (b.apply m l.next text location).hasTag = true := by
  generalize hb : b.context = here at hl
  have leads {b' : Assembly} {next : Context} {offset : Nat} (hn : next.isTagName = false) :
      (b'.enter next offset).hasTag = true := hasTag_of_context (by rw [enter_context]; exact hn)
  cases hl <;> cases hm <;> simp only [apply]
  case openTag | closeRcdata => exact hasTag_of_isSome (by rw [enter_tag]; rfl)
  case nameChars =>
    refine hasTag_of_isSome ?_
    rw [enter_tag]
    obtain ⟨tag, ht⟩ := Option.isSome_iff_exists.mp (isSome_of_hasTag h (by rw [hb]; rfl))
    unfold addTagName
    rw [ht]
    rfl
  case abort =>
    have ht := isSome_of_hasTag h (by rw [hb]; rfl)
    split
    · exact hasTag_of_context (Context.isTagName_of_isContent (isContent_abortTag ht))
    · exact leads rfl
  case endTag =>
    split
    · next ht =>
      exact hasTag_of_context
        (Context.isTagName_of_isContent (isContent_closeTag (by rw [ht]; rfl) ..))
    · exact hasTag_of_context (by rw [report, hb]; rfl)
  case closeComment =>
    split
    · exact leads rfl
    · exact hasTag_of_context (by rw [addText_context, report, hb]; rfl)
  case closeBare | closeQuoted =>
    split
    · exact leads rfl
    · split
      · exact leads rfl
      · exact hasTag_of_context (by rw [addText_context, report, hb]; rfl)
  all_goals exact leads rfl

/-! ## 3. Reading -/

/-- Content does not lead to a tag name. -/
theorem isTagName_of_content {here : Context} {c : Char} {l : Lexeme} (h : Context.Move here c l)
    (hm : l.mark = none) : l.next.isTagName = false := by
  have hnext := (Context.Move.of_content h hm).2.2
  cases hc : l.next <;> first | rfl | (rw [hc] at hnext; cases hnext)

/-- A run keeps the tag of a tag name. -/
theorem hasTag_read {b : Assembly} {run : RawRun} {t : Text} (h : b.hasTag = true) :
    (b.read run 0 none t).hasTag = true := by
  refine read_rule (P := fun b _ _ => b.hasTag = true) ?_ ?_ ?_ h nofun
  · intro b held c cs location offset _ hm
    refine hasTag_of_context ?_
    rw [enter_context]
    exact isTagName_of_content (Context.lexeme_move ..) hm
  · exact fun location h _ _ => hasTag_congr h (addText_context ..) (addText_tag ..)
  · intro b c cs m location place h hm
    refine hasTag_apply (c := c) _ _ ?_ ?_ hm
    · exact hasTag_congr h (reportLexeme_context ..) (reportLexeme_tag ..)
    · rw [reportLexeme_context]
      exact Context.lexeme_move ..

theorem release_tag (b : Assembly) (run : RawRun) (held : Option Held) (pos : Nat) :
    (b.release run held pos).tag = b.tag := by
  cases held with
  | none => rfl
  | some k => exact addText_tag ..

/-- Content that is held after `u` has been read starts at byte `start`. -/
inductive HeldFrom (u : Text) : Option Held → Option Nat → Prop
  | idle : HeldFrom u none none
  | since {before : Text} {held : Held} (hu : u = before ++ held.text)
      (hs : held.start = Text.size before) : HeldFrom u (some held) (some held.start)

theorem HeldFrom.add {u text : Text} {held : Option Held} {start : Option Nat}
    (h : HeldFrom u held start) :
    HeldFrom (u ++ text) (some (Held.add held (Text.size u) text))
      (some (start.getD (Text.size u))) := by
  cases h with
  | idle => exact .since (by rw [Held.text_add_none]) rfl
  | since hu hs => exact .since (by rw [Held.text_add_some, ← List.append_assoc, ← hu]) hs

theorem releaseGuarded_eq {u t : Text} {held : Option Held} {start : Option Nat} {run : RawRun}
    (h : HeldFrom u held start) (hrun : run.text = u ++ t) (b : Assembly) :
    b.releaseGuarded run start (Text.size u) = some (b.release run held (Text.size u)) := by
  cases h with
  | idle => rfl
  | since hu hs =>
    unfold releaseGuarded release
    dsimp only
    rw [hrun, hs, hu, List.append_assoc, Text.slice?_size, RawRun.location?_eq]
    rfl

/-- In a tag name with its tag the guarded mark is the mark. -/
theorem applyGuarded_eq {b : Assembly} {c : Char} {l : Lexeme} {m : Mark} (text : Text)
    (location : Span) (h : b.hasTag = true) (hl : Context.Move b.context c l)
    (hm : l.mark = some m) :
    b.applyGuarded m l.next text location = b.apply m l.next text location := by
  unfold applyGuarded
  split
  · obtain ⟨part, hb⟩ := (Context.Move.of_mark hl hm).2.1 rfl
    obtain ⟨tag, ht⟩ := Option.isSome_iff_exists.mp (isSome_of_hasTag h (by rw [hb]; rfl))
    simp only [apply, ht]
  · rfl

/-- **Every turn of the reading loop moves on**: it takes bytes or changes the context. -/
theorem progress_of_mark {b : Assembly} {c : Char} {cs : Text} {m : Mark}
    (hm : (b.context.lexeme c cs).mark = some m) (b' : Assembly) (location : Span) :
    (0 < Text.size ((c :: cs).take (b.context.lexeme c cs).width)
      || (b'.apply m (b.context.lexeme c cs).next ((c :: cs).take (b.context.lexeme c cs).width)
        location).context != b.context) = true := by
  cases hw : (b.context.lexeme c cs).width with
  | zero =>
    have hlt := Context.rank_lt_of_width_eq_zero hw
    have hle : (b'.apply m (b.context.lexeme c cs).next [] location).context.rank c
        ≤ (b.context.lexeme c cs).next.rank c :=
      rank_apply_le b' location c (Context.mayBeEmpty_of_width_eq_zero hw hm)
    have hne : (b'.apply m (b.context.lexeme c cs).next [] location).context ≠ b.context :=
      fun h => by
        rw [h] at hle
        omega
    simp [hne]
  | succ w =>
    have hpos : 0 < Text.size ((c :: cs).take (w + 1)) := by
      have := c.utf8Size_pos
      rw [List.take_succ_cons, Text.size_cons]
      omega
    rw [decide_eq_true hpos, Bool.true_or]

/-- A turn that does what a mark says leaves less work. -/
theorem workLeft_apply_lt {b b' : Assembly} {c : Char} {cs : Text} {m : Mark}
    (hm : (b.context.lexeme c cs).mark = some m) (location : Span) :
    (b'.apply m (b.context.lexeme c cs).next ((c :: cs).take (b.context.lexeme c cs).width)
        location).context.workLeft ((c :: cs).drop (b.context.lexeme c cs).width)
      < b.context.workLeft (c :: cs) := by
  refine Context.workLeft_drop_lt fun hw => ?_
  rw [hw, List.take_zero]
  exact rank_apply_le _ _ c (Context.mayBeEmpty_of_width_eq_zero hw hm)

/-- **The guarded loop reads what the loop reads**, given a turn more than there is work. -/
theorem readGuarded_eq {run : RawRun} {b : Assembly} {pos : Nat} {held : Option Held} {t u : Text}
    {start : Option Nat} {turns : Nat} (h : b.hasTag = true) (hrun : run.text = u ++ t)
    (hpos : pos = Text.size u) (hheld : HeldFrom u held start)
    (hturns : b.context.workLeft t ≤ turns) :
    b.readGuarded run pos start (turns + 1) = some (b.read run pos held t) := by
  induction b, pos, held, t using read.induct run generalizing u start turns with
  | case1 b pos held =>
    subst hpos
    rw [readGuarded, h, hrun, Text.dropBytes?_size, read]
    exact releaseGuarded_eq hheld hrun b
  | case2 b pos held c cs l text stop faultStop =>
    rename_i b' hm ih
    subst hpos
    have hless : (b'.enter l.next (run.locate (Text.size u))).context.workLeft
        ((c :: cs).drop l.width) < b.context.workLeft (c :: cs) :=
      Context.workLeft_drop_lt fun _ => Nat.le_of_eq (by rw [enter_context])
    obtain ⟨turns, rfl⟩ : ∃ k, turns = k + 1 :=
      ⟨turns - 1, by have := hturns; simp only [Context.workLeft] at this; omega⟩
    have hrest : run.text = (u ++ text) ++ (c :: cs).drop l.width := by
      rw [List.append_assoc, List.take_append_drop, hrun]
    have htag : (b'.enter l.next (run.locate (Text.size u))).hasTag = true := by
      refine hasTag_of_context ?_
      rw [enter_context]
      exact isTagName_of_content (Context.lexeme_move b.context c cs) hm
    have hsize : l.size? (c :: cs) = some (Text.size text) := if_pos (Context.width_lexeme_le ..)
    have key := ih htag hrest (Text.size_append ..).symm hheld.add
      (Nat.le_of_lt_succ (Nat.lt_of_lt_of_le hless hturns))
    rw [readGuarded, h, hrun, Text.dropBytes?_size, read]
    simp only [guard_true, Option.pure_def, Option.bind_eq_bind, Option.bind_some,
      RawRun.location?_eq]
    rw [hsize, Option.bind_some]
    split
    · split
      · exact key
      · next hm' => cases hm.symm.trans hm'
    · next hm' => cases hm.symm.trans hm'
  | case3 b pos held c cs l text stop faultStop b' =>
    rename_i m hm ih
    subst hpos
    obtain ⟨turns, rfl⟩ : ∃ k, turns = k + 1 :=
      ⟨turns - 1, by have := hturns; simp only [Context.workLeft] at this; omega⟩
    have hmove := Context.lexeme_move b.context c cs
    have hrest : run.text = (u ++ text) ++ (c :: cs).drop l.width := by
      rw [List.append_assoc, List.take_append_drop, hrun]
    have hsize : l.size? (c :: cs) = some (Text.size text) := if_pos (Context.width_lexeme_le ..)
    have hslice :
        Text.slice? (Text.size u) (Text.size u + Text.size text) run.text = some text := by
      rw [hrest, ← Text.size_append, List.append_assoc, Text.slice?_size]
    have hcontext : (b'.release run held (Text.size u)).context = b.context := by
      rw [release_context, reportLexeme_context]
    have hreleased : (b'.release run held (Text.size u)).hasTag = true :=
      hasTag_congr h hcontext (by rw [release_tag, reportLexeme_tag])
    have hlexeme : Context.Move (b'.release run held (Text.size u)).context c l := by
      rw [hcontext]
      exact hmove
    have key := ih (hasTag_apply _ _ hreleased hlexeme hm) hrest (Text.size_append ..).symm .idle
      (Nat.le_of_lt_succ (Nat.lt_of_lt_of_le (workLeft_apply_lt hm _) hturns))
    rw [readGuarded, h, hrun, Text.dropBytes?_size, read]
    simp only [guard_true, Option.pure_def, Option.bind_eq_bind, Option.bind_some,
      RawRun.location?_eq]
    rw [hsize, Option.bind_some]
    split
    · next hm' => cases hm.symm.trans hm'
    · next m' hm' =>
      obtain rfl : m = m' := Option.some.inj (hm.symm.trans hm')
      rw [hrun] at hslice
      rw [show b.reportLexeme _ _ = b' from rfl, releaseGuarded_eq hheld hrun b', Option.bind_some,
        hslice, Option.bind_some]
      rw [applyGuarded_eq _ _ hreleased hlexeme hm, guard_eq_some (progress_of_mark hm _ _),
        Option.bind_some]
      split
      · next hm' => cases hm.symm.trans hm'
      · next m' hm' =>
        obtain rfl : m = m' := Option.some.inj (hm.symm.trans hm')
        exact key

theorem readRunGuarded_eq {b : Assembly} (h : b.hasTag = true) (run : RawRun) :
    b.readRunGuarded run = some (b.readRun run) := by
  have key : ({ b with ledger := b.ledger.countRun } : Assembly).readGuarded run 0 none
        (b.context.workLeft run.text + 1)
      = some (({ b with ledger := b.ledger.countRun } : Assembly).read run 0 none run.text) :=
    readGuarded_eq (u := []) h rfl rfl .idle (Nat.le_refl _)
  unfold readRunGuarded
  dsimp only
  rw [key]
  rfl

theorem hasTag_readRun {b : Assembly} (h : b.hasTag = true) (run : RawRun) :
    (b.readRun run).hasTag = true :=
  @hasTag_read { b with ledger := b.ledger.countRun } run _ h

theorem readCollectedGuarded_eq {b : Assembly} (h : b.hasTag = true) (run : Option RawRun) :
    b.readCollectedGuarded run = some (b.readCollected run) := by
  cases run with
  | none => rfl
  | some run => exact readRunGuarded_eq h run

theorem hasTag_readCollected {b : Assembly} (h : b.hasTag = true) (run : Option RawRun) :
    (b.readCollected run).hasTag = true := by
  cases run with
  | none => exact h
  | some run => exact hasTag_readRun h run

theorem collectGuarded_eq {b : Assembly} (h : b.hasTag = true) (run : Option RawRun) (text : Text)
    (location : Span) :
    b.collectGuarded run text location = some (b.collect run text location) := by
  unfold collectGuarded collect
  split
  · rfl
  · split
    · rfl
    · rw [readRunGuarded_eq h]
      rfl

theorem hasTag_collect {b : Assembly} (h : b.hasTag = true) (run : Option RawRun) (text : Text)
    (location : Span) : (b.collect run text location).1.hasTag = true := by
  unfold collect
  split
  · exact h
  · split
    · exact h
    · exact hasTag_readRun h _

/-! ## 4. Placing -/

/-- Content is placed where content may stand. -/
theorem isTagName_placeContent {b : Assembly} (h : b.context.isTagName = false) (node : Node) :
    (b.placeContent node).context.isTagName = false := by
  unfold placeContent
  split
  · rwa [addContent_context]
  · next next hn =>
    rw [enter_context]
    have := (isContent_of_contextAfter? hn).2
    cases next <;> first | rfl | cases this

/-- A node placed in a tag stands there or in a name. -/
theorem isTagName_placeInTag {b : Assembly} (h : b.context.isTagName = false) (node : Node) :
    (b.placeInTag node).context.isTagName = false := by
  unfold placeInTag
  split
  · rw [enter_context]
    rfl
  · rwa [addAmongAttrs_context]

theorem isTagName_placeBeforeValue {b : Assembly} (h : b.context.isTagName = false) (node : Node) :
    (b.placeBeforeValue node).context.isTagName = false := by
  unfold placeBeforeValue
  split
  · rw [enter_context]
    rfl
  · rw [enter_context]
    rfl
  · unfold fillSlot
    rw [enter_context]
    rfl
  · rwa [addAmongAttrs_context]

theorem hasTag_place {b : Assembly} (h : b.hasTag = true) (node : Node) :
    (b.place node).hasTag = true := by
  unfold place
  split <;> rename_i hb
  case h_7 =>
    unfold placeTagName
    have ht := isSome_of_hasTag h (by rw [hb]; rfl)
    split
    · obtain ⟨tag, htag⟩ := Option.isSome_iff_exists.mp ht
      refine hasTag_of_isSome ?_
      rw [enter_tag, htag]
      rfl
    · have hcontent := isContent_abortTag (b := b.report node.location .expectedTagName) ht
      exact hasTag_of_context
        (isTagName_placeContent (Context.isTagName_of_isContent hcontent) node)
  case h_8 =>
    exact hasTag_of_context (isTagName_placeInTag (by rw [enter_context]; rfl) node)
  case h_9 => exact hasTag_of_context (isTagName_placeInTag (by rw [hb]; rfl) node)
  case h_10 =>
    split
    · exact h
    · exact hasTag_of_context (isTagName_placeInTag (by rw [closeAttr, enter_context]; rfl) node)
  case h_11 => exact hasTag_of_context (isTagName_placeBeforeValue (by rw [hb]; rfl) node)
  all_goals exact hasTag_of_context (isTagName_placeContent (by rw [hb]; rfl) node)

/-- In a tag a node is placed at once. -/
theorem placeGuarded_inTag {b : Assembly} (hb : b.context = .beforeAttrName) (node : Node)
    (turns : Nat) : b.placeGuarded node (turns + 1) = some (b.placeInTag node) := by
  rw [placeGuarded, hasTag_of_context (by rw [hb]; rfl), hb]
  rfl

/-- In content a node is placed at once. -/
theorem placeGuarded_content {b : Assembly} (hb : b.context.isContent = true) (node : Node)
    (turns : Nat) : b.placeGuarded node (turns + 1) = some (b.placeContent node) := by
  have hplace {here : Context} (hc : b.context = here) (hh : here.isContent = true) :
      b.placeGuarded node (turns + 1) = some (b.placeContent node) := by
    rw [placeGuarded, hc]
    cases here <;> first
      | (rw [hasTag_of_context (by rw [hc]; rfl)]; rfl)
      | cases hh
  exact hplace rfl hb

/-- **A node is placed anew at most once.** -/
theorem placeGuarded_eq {b : Assembly} (h : b.hasTag = true) (node : Node) :
    b.placeGuarded node 2 = some (b.place node) := by
  rw [placeGuarded, h]
  simp only [guard_true, Option.pure_def, Option.bind_eq_bind, Option.bind_some]
  unfold place
  cases hb : b.context with
  | tagName part =>
    cases part with
    | empty =>
      dsimp only
      unfold placeTagName
      split
      · rfl
      · have ht := isSome_of_hasTag h (by rw [hb]; rfl)
        exact placeGuarded_content
          (isContent_abortTag (b := b.report node.location .expectedTagName) ht) node 0
    | static | dynamic => exact placeGuarded_inTag (enter_context ..) node 0
  | attrName part sep drop =>
    dsimp only
    split
    · rfl
    · exact placeGuarded_inTag (enter_context ..) node 0
  | _ => rfl

/-! ## 5. Control flow and ends -/

/-- **Before control flow a name ends.** -/
theorem isSettled_settle {b : Assembly} (h : b.hasTag = true) (location : Span) :
    (b.settle location).context.isSettled = true := by
  unfold settle
  split <;> rename_i hb
  · exact Context.isSettled_of_isContent (isContent_abortTag
      (b := b.report location .controlFlowInTagName) (isSome_of_hasTag (b := b) h (by rw [hb]; rfl)))
  · rw [enter_context]
    rfl
  · rw [closeAttr, enter_context]
    rfl
  · next _ hpart =>
    cases hc : b.context with
    | tagName part => exact absurd hc (hpart part)
    | attrName part sep drop => exact absurd hc (hb part sep drop)
    | _ => rfl

/-- Control flow goes on where its branches have ended. -/
theorem isTagName_placeFlow {b : Assembly} {exit : Context} (h : exit.isSettled = true)
    (flow : Flow) : (b.placeFlow flow exit).context.isTagName = false := by
  have hexit := Context.isTagName_of_isSettled h
  unfold placeFlow
  split
  · split
    · rw [fillSlot, enter_context]
      rfl
    · rwa [enter_context]
  · rwa [enter_context]
  · rwa [enter_context]

/-- At the end a name ends as well. -/
theorem isSettled_settleAtEnd {b : Assembly} (h : b.hasTag = true) :
    b.settleAtEnd.context.isSettled = true := by
  unfold settleAtEnd
  split <;> rename_i hb
  · exact Context.isSettled_of_isContent
      (isContent_abortTag (isSome_of_hasTag h (by rw [hb]; rfl)))
  · rw [enter_context]
    rfl
  · rw [closeAttr, enter_context]
    rfl
  · next _ hpart =>
    cases hc : b.context with
    | tagName part => exact absurd hc (hpart part)
    | attrName part sep drop => exact absurd hc (hb part sep drop)
    | _ => rfl

/-- Closing what is left of a tag or a comment begins no name. -/
theorem isSettled_closeTag {b : Assembly} (h : b.context.isSettled = true) (stop : Nat) :
    (b.closeTag false stop false).context.isSettled = true := by
  cases ht : b.tag with
  | none =>
    unfold closeTag
    rwa [ht]
  | some tag => exact Context.isSettled_of_isContent (isContent_closeTag (by rw [ht]; rfl) ..)

theorem isSettled_closeAnyComment {b : Assembly} (h : b.context.isSettled = true) (stop : Nat) :
    (b.closeAnyComment stop).context.isSettled = true := by
  unfold closeAnyComment
  split
  · rw [enter_context]
    rfl
  · exact h

/-- **A branch does not end in a name.** -/
theorem isSettled_endBranch {b : Assembly} (h : b.hasTag = true) :
    b.endBranch.context.isSettled = true := by
  have hattr := isSettled_closeAnyAttr (isSettled_closeValue (isSettled_settleAtEnd h) b.offset)
    b.offset
  have hclose : b.closeDrafts.context.isSettled = true := by
    rw [closeDrafts_eq]
    exact isSettled_closeAnyComment (isSettled_closeTag hattr b.offset) b.offset
  unfold endBranch
  split
  · exact hclose
  · exact hclose

end Assembly

/-! ## 6. The pass -/

/-- Control flow goes on where it began or where a branch ended. -/
theorem isSettled_reconcile {l : Ledger} {location : Span} {head : FlowHead} {entry : Context}
    {exits : Exits} (he : entry.isSettled = true) (hx : ∀ e ∈ exits, e.2.isSettled = true) :
    (reconcile l location head entry exits).1.isSettled = true := by
  rcases reconcile_fst l location head entry exits with h | ⟨e, hmem, h⟩
  · rwa [h]
  · rw [h]
    exact hx e hmem

theorem hasTag_start (l : Ledger) {entry : Context} (h : entry.isSettled = true) (inBranch : Bool)
    (offset : Nat) : (Assembly.start l entry inBranch offset).hasTag = true :=
  Assembly.hasTag_of_context (Context.isTagName_of_isSettled h)

mutual

/-- **The guarded pass feeds nodes as the pass does**, and keeps the tag of a tag name. -/
theorem feedNodesGuarded_eq : ∀ (nodes : List Node) (b : Assembly) (run : Option RawRun),
    b.hasTag = true → feedNodesGuarded b run nodes = some (feedNodes b run nodes)
      ∧ (feedNodes b run nodes).hasTag = true
  | [], b, run, h => by
    rw [feedNodesGuarded, feedNodes]
    exact ⟨Assembly.readCollectedGuarded_eq h run, Assembly.hasTag_readCollected h run⟩
  | n :: nodes, b, run, h => by
    rw [feedNodesGuarded, feedNodes]
    cases ht : n.rawText? with
    | some text =>
      simp only [Assembly.collectGuarded_eq h, Option.bind_eq_bind, Option.bind_some]
      exact feedNodesGuarded_eq nodes _ _ (Assembly.hasTag_collect h run text n.location)
    | none =>
      have hread := Assembly.hasTag_readCollected h run
      obtain ⟨hnode, htag⟩ := feedNodeGuarded_eq n _ hread
      simp only [Assembly.readCollectedGuarded_eq h, Option.bind_eq_bind, Option.bind_some, hnode]
      exact feedNodesGuarded_eq nodes _ none htag

theorem feedNodeGuarded_eq : ∀ (n : Node) (b : Assembly), b.hasTag = true →
    feedNodeGuarded b n = some (feedNode b n) ∧ (feedNode b n).hasTag = true
  | .call id location callee params, b, h => by
    rw [feedNodeGuarded, feedNode, rewriteParamsGuarded_eq params b.ledger]
    have hplace (l : Ledger) (node : Node) := Assembly.placeGuarded_eq
      (b := { b with ledger := l }) h node
    refine ⟨?_, Assembly.hasTag_place
      (b := { b with ledger := (rewriteParams b.ledger params).2 }) h _⟩
    simp only [Option.bind_eq_bind, Option.bind_some, hplace]
    rfl
  | .binding id location var value, b, h => by
    rw [feedNodeGuarded, feedNode, rewriteValueGuarded_eq value b.ledger]
    have hplace (l : Ledger) (node : Node) := Assembly.placeGuarded_eq
      (b := { b with ledger := l }) h node
    refine ⟨?_, Assembly.hasTag_place
      (b := { b with ledger := (rewriteValue b.ledger .letContent location value).2 }) h _⟩
    simp only [Option.bind_eq_bind, Option.bind_some, hplace]
    rfl
  | .flow flow, b, h => by
    rw [feedNodeGuarded, feedNode]
    have hset := Assembly.isSettled_settle h flow.location
    obtain ⟨hflow, hexit⟩ := rewriteFlowGuarded_eq flow (b.settle flow.location).ledger _ hset
    refine ⟨?_, ?_⟩
    · simp only [h, guard_true, Option.pure_def, Option.bind_eq_bind, Option.bind_some, hflow]
    · exact Assembly.hasTag_of_context (Assembly.isTagName_placeFlow hexit _)
  | .raw .., b, h | .print .., b, h | .openTag .., b, h | .closeTag .., b, h | .attr .., b, h
  | .attrValue .., b, h | .comment .., b, h => by
    rw [feedNodeGuarded, feedNode, Assembly.placeGuarded_eq h]
    exact ⟨rfl, Assembly.hasTag_place h _⟩
    all_goals simp

theorem rewriteFlowGuarded_eq : ∀ (flow : Flow) (l : Ledger) (entry : Context),
    entry.isSettled = true → rewriteFlowGuarded l entry flow = some (rewriteFlow l entry flow)
      ∧ (rewriteFlow l entry flow).2.1.isSettled = true
  | ⟨id, location, head, branches⟩, l, entry, h => by
    rw [rewriteFlowGuarded, rewriteFlow]
    dsimp only
    split
    · exact ⟨rfl, h⟩
    · obtain ⟨hbranches, hexits⟩ :=
        rewriteBranchesGuarded_eq branches { l with depth := l.depth + 1 } entry location.start h
      rw [hbranches]
      exact ⟨rfl, isSettled_reconcile h hexits⟩

theorem rewriteBranchesGuarded_eq : ∀ (branches : List Branch) (l : Ledger) (entry : Context)
    (offset : Nat), entry.isSettled = true →
    rewriteBranchesGuarded l entry offset branches = some (rewriteBranches l entry offset branches)
      ∧ ∀ e ∈ (rewriteBranches l entry offset branches).2.1, e.2.isSettled = true
  | [], l, entry, offset, _ => by
    rw [rewriteBranchesGuarded, rewriteBranches]
    exact ⟨rfl, nofun⟩
  | branch :: branches, l, entry, offset, h => by
    rw [rewriteBranchesGuarded, rewriteBranches]
    obtain ⟨hbranch, hexit⟩ := rewriteBranchGuarded_eq branch l entry offset h
    obtain ⟨hbranches, hexits⟩ := rewriteBranchesGuarded_eq branches
      (rewriteBranch l entry offset branch).2.2 entry offset h
    rw [hbranch]
    simp only [Option.bind_eq_bind, Option.bind_some, hbranches]
    exact ⟨rfl, List.forall_mem_cons.mpr ⟨hexit, hexits⟩⟩

theorem rewriteBranchGuarded_eq : ∀ (branch : Branch) (l : Ledger) (entry : Context) (offset : Nat),
    entry.isSettled = true →
    rewriteBranchGuarded l entry offset branch = some (rewriteBranch l entry offset branch)
      ∧ (rewriteBranch l entry offset branch).2.1.isSettled = true
  | ⟨id, kind, nodes⟩, l, entry, offset, h => by
    rw [rewriteBranchGuarded, rewriteBranch]
    obtain ⟨hnodes, htag⟩ := feedNodesGuarded_eq nodes (.start l.countBranch entry true offset) none
      (hasTag_start _ h ..)
    refine ⟨?_, Assembly.isSettled_endBranch htag⟩
    simp only [hnodes, Option.bind_eq_bind, Option.bind_some, htag, guard_true, Option.pure_def]

theorem rewriteParamsGuarded_eq : ∀ (params : List Param) (l : Ledger),
    rewriteParamsGuarded l params = some (rewriteParams l params)
  | [], l => by rw [rewriteParamsGuarded, rewriteParams]
  | p :: params, l => by
    rw [rewriteParamsGuarded, rewriteParams, rewriteParamGuarded_eq p l]
    simp only [Option.bind_eq_bind, Option.bind_some, rewriteParamsGuarded_eq params]
    rfl

theorem rewriteParamGuarded_eq : ∀ (p : Param) (l : Ledger),
    rewriteParamGuarded l p = some (rewriteParam l p)
  | ⟨id, location, name, value⟩, l => by
    rw [rewriteParamGuarded, rewriteParam, rewriteValueGuarded_eq value l]
    rfl

theorem rewriteValueGuarded_eq : ∀ (value : Value) (l : Ledger) (block : BlockKind)
    (location : Span),
    rewriteValueGuarded l block location value = some (rewriteValue l block location value)
  | .expr expr, l, block, location => by rw [rewriteValueGuarded, rewriteValue]
  | .content kind nodes, l, block, location => by
    rw [rewriteValueGuarded, rewriteValue]
    dsimp only
    cases he : Context.entry? (declaredOrHtml kind) with
    | some entry =>
      obtain ⟨hnodes, htag⟩ := feedNodesGuarded_eq nodes
        (.start l.countBlock entry false location.start) none (hasTag_start _ (Context.isSettled_of_entry? he) ..)
      simp only [hnodes, Option.bind_eq_bind, Option.bind_some, htag, guard_true,
        Option.pure_def]
    | none =>
      dsimp only
      rw [enterNodesGuarded_eq nodes l.countBlock]
      rfl

theorem enterNodesGuarded_eq : ∀ (nodes : List Node) (l : Ledger),
    enterNodesGuarded l nodes = some (enterNodes l nodes)
  | [], l => by rw [enterNodesGuarded, enterNodes]
  | n :: nodes, l => by
    rw [enterNodesGuarded, enterNodes, enterNodeGuarded_eq n l]
    simp only [Option.bind_eq_bind, Option.bind_some, enterNodesGuarded_eq nodes]
    rfl

theorem enterNodeGuarded_eq : ∀ (n : Node) (l : Ledger),
    enterNodeGuarded l n = some (enterNode l n)
  | .call id location callee params, l => by
    rw [enterNodeGuarded, enterNode, rewriteParamsGuarded_eq params l]
    rfl
  | .binding id location var value, l => by
    rw [enterNodeGuarded, enterNode, rewriteValueGuarded_eq value l]
    rfl
  | .flow flow, l => by
    rw [enterNodeGuarded, enterNode, enterFlowGuarded_eq flow l]
    rfl
  | .raw .., l | .print .., l | .openTag .., l | .closeTag .., l | .attr .., l | .attrValue .., l
  | .comment .., l => by
    rw [enterNodeGuarded, enterNode]
    all_goals simp

theorem enterFlowGuarded_eq : ∀ (flow : Flow) (l : Ledger),
    enterFlowGuarded l flow = some (enterFlow l flow)
  | ⟨id, location, head, branches⟩, l => by
    rw [enterFlowGuarded, enterFlow, enterBranchesGuarded_eq branches l]
    rfl

theorem enterBranchesGuarded_eq : ∀ (branches : List Branch) (l : Ledger),
    enterBranchesGuarded l branches = some (enterBranches l branches)
  | [], l => by rw [enterBranchesGuarded, enterBranches]
  | branch :: branches, l => by
    rw [enterBranchesGuarded, enterBranches, enterBranchGuarded_eq branch l]
    simp only [Option.bind_eq_bind, Option.bind_some, enterBranchesGuarded_eq branches]
    rfl

theorem enterBranchGuarded_eq : ∀ (branch : Branch) (l : Ledger),
    enterBranchGuarded l branch = some (enterBranch l branch)
  | ⟨id, kind, nodes⟩, l => by
    rw [enterBranchGuarded, enterBranch, enterNodesGuarded_eq nodes l]
    rfl

end

/-- **No partial step fails and every run comes to its end**: for every template, kind and
configuration, whatever is reported, the guarded pass gives what the pass gives. -/
theorem Template.rewriteGuarded_eq (config : Config) (ids : IdSource) (t : Template) :
    t.rewriteGuarded config ids = some (t.rewrite config ids) := by
  unfold Template.rewriteGuarded Template.rewrite rewriteBlock
  rw [rewriteValueGuarded_eq]
  rfl

end TemplateMarkup
