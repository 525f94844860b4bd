/-
# Places nest

A run over a template gives every node and every report a stretch of whole characters of the source,
whatever is reported.  If nothing is reported, the place of a node lies in the place of every node
around it (`Template.rewrite_nested`).

`Assembly.Seated` is kept by every mark, every run of text and every node that is placed; the drafts
that are open, which `Assembly.Coherent` tells from the context, say that a tag opens inside no
attribute and an attribute inside no value.
-/
import TemplateMarkup.Proofs.Html.Seating

namespace TemplateMarkup

open Span (Between)

namespace Assembly

section

variable {src : Text} {clean : Prop} {lo hi : Nat} {b : Assembly}

/-! ## 1. Marks -/

/-- Outside values none is open. -/
theorem Coherent.value_eq_none {t : Text} (h : b.Coherent t)
    (hc : ∀ quotes, b.context ≠ .attrValue quotes) : b.value = none := by
  unfold Coherent at h
  generalize b.context = here, b.tag = tag, b.attr = attr, b.value = value, b.comment = comment at *
  cases h <;> first | rfl | exact absurd rfl (hc _)

/-- **A mark leaves everything where it may stand.** -/
theorem Seated.apply (h : b.Seated src clean lo hi) (mark : Mark) (next : Context) (text : Text)
    {location : Span} (hs : location.Sound src) (hle : hi ≤ location.start)
    (htag : clean → (∃ close, mark = .tagStart close) → b.attr = none ∧ b.value = none)
    (hattr : clean → mark = .attrNameStart → b.value = none) :
    (b.apply mark next text location).Seated src clean lo location.stop := by
  have hle' := hle.trans location.start_le_stop
  have h' := h.mono hle'
  have hstart := hs.start_boundary
  cases mark <;> dsimp only [Assembly.apply]
  case skip =>
    refine Seated.enter ?_ _ hstart
    split
    · exact h'.discardAttr
    · exact h'
  case tagStart close => exact (h.openTag _ hs hle fun hc => htag hc ⟨close, rfl⟩).enter _ hstart
  case tagNameChars => exact (h.addTagName _ hs hle).enter _ hstart
  case tagNameEnd => exact h'.finishTagName.enter _ hstart
  case tagAbort =>
    split
    · exact h'.abortTag
    · exact h'.enter _ hstart
  case tagEnd selfClosing =>
    split
    · exact h.closeTag _ hle' hs.stop_boundary _
    · exact h'.report hs _
  case attrNameStart =>
    exact ((h.openAttr (Span.sound_point hstart) hle seatedIn_nil _ fun hc => hattr hc rfl).mono
      location.start_le_stop).enter _ hstart
  case attrNameChar => exact (h.addAttrName _ hs hle).enter _ hstart
  case attrNameEnd =>
    exact ((h.endAttr hle hstart).mono location.start_le_stop).enter _ hstart
  case attrEquals => exact h'.finishAttrName.enter _ hstart
  case valueStart quotes =>
    refine (h'.openValue ⟨⟨hstart, fun hc => ⟨?_, location.start_le_stop⟩⟩, seatedIn_nil⟩).enter _ hstart
    exact (h.offset_attrStart hc).2.trans hle
  case valueEnd =>
    split
    · exact (h.endValue hle' hs.stop_boundary).enter _ hs.stop_boundary
    · split
      · exact (h'.report hs _).enter _ hstart
      · exact (h.report hs _).addTextBehind _ hs hle
  case commentStart =>
    refine Seated.enter ?_ _ hstart
    refine { h' with comment := ?_ }
    rintro _ ⟨⟩
    exact ⟨⟨hstart, fun _ => ⟨h.le.trans hle, location.start_le_stop⟩⟩, seatedIn_nil⟩
  case commentEnd =>
    split
    · exact (h.endComment hle' hs.stop_boundary).enter _ hstart
    · exact (h.report hs _).addTextBehind _ hs hle

/-! ## 2. Runs -/

/-- What is held back began at a character of the run, and everything before it has its place. -/
structure SeatedAt (src : Text) (clean : Prop) (lo : Nat) (run : RawRun) (b : Assembly)
    (start pos : Nat) (held t : Text) : Prop where
  at_run : ∃ before, run.text = before ++ held ++ t ∧ start = before.size
    ∧ pos = (before ++ held).size
  coherent : clean → b.Clean → b.Coherent t
  seated : (clean → b.Clean) → b.Seated src clean lo (run.locate start)

/-- The characters of a lexeme end at a character of the run, and so does the place of its fault. -/
theorem SeatedAt.boundary {run : RawRun} {start pos : Nat} {held : Text} {c : Char} {cs : Text}
    (h : SeatedAt src clean lo run b start pos held (c :: cs)) (width : Nat) :
    run.text.Boundary start ∧ run.text.Boundary pos
      ∧ run.text.Boundary (pos + Text.size ((c :: cs).take width))
      ∧ run.text.Boundary (pos + max (Text.size ((c :: cs).take width)) c.utf8Size) := by
  obtain ⟨before, htext, rfl, rfl⟩ := h.at_run
  have htake : run.text.Boundary
      ((before ++ held).size + Text.size ((c :: cs).take width)) := by
    refine ⟨before ++ held ++ (c :: cs).take width, (c :: cs).drop width, ?_,
      Text.size_append ..⟩
    rw [htext, List.append_assoc _ (List.take _ _), List.take_append_drop]
  refine ⟨⟨before, held ++ (c :: cs), by simp [htext], rfl⟩,
    ⟨before ++ held, c :: cs, htext, rfl⟩, htake, ?_⟩
  cases width with
  | zero =>
    refine ⟨before ++ held ++ [c], cs, by simp [htext], ?_⟩
    simp [Nat.add_assoc]
  | succ w =>
    rw [Nat.max_eq_left (by simp)]
    exact htake

section Steps

variable {run : RawRun} {mid top : Nat} {start pos : Nat} {held t : Text} {c : Char} {cs : Text}

/-- Content is held back. -/
theorem SeatedAt.content (hrun : run.LaidOut src mid top)
    (h : SeatedAt src clean lo run b start pos held (c :: cs))
    (hm : (b.context.lexeme c cs).mark = none) :
    let text : Text := (c :: cs).take (b.context.lexeme c cs).width
    SeatedAt src clean lo run
      ((b.reportLexeme (run.location pos (pos + max text.size c.utf8Size))
        (b.context.lexeme c cs)).enter (b.context.lexeme c cs).next (run.locate pos))
      start (pos + text.size) (held ++ text) ((c :: cs).drop (b.context.lexeme c cs).width) := by
  obtain ⟨-, hpos, -, hfault⟩ := h.boundary (b.context.lexeme c cs).width
  refine ⟨?_, fun hc => Coherent.content_of_clean _ _ (h.coherent hc) hm, fun hc => ?_⟩
  · obtain ⟨before, htext, hstart, rfl⟩ := h.at_run
    exact ⟨before, by rw [htext]; simp, hstart, by simp [Nat.add_assoc]⟩
  · have hbefore := h.seated fun hx => (extends_reportLexeme ..).clean
      ((extends_enter ..).clean (hc hx))
    exact (hbefore.reportLexeme (hrun.sound_location hpos hfault) _).enter _
      (hrun.boundary_locate hpos)

/-- What is held back is added where it was read. -/
theorem SeatedAt.release (hrun : run.LaidOut src mid top)
    (h : SeatedAt src clean lo run b start pos held t) :
    SeatedAt src clean lo run (b.addText held (run.location start pos)) pos pos [] t := by
  obtain ⟨before, htext, rfl, rfl⟩ := h.at_run
  refine ⟨⟨before ++ held, by simp [htext], rfl, by simp⟩,
    fun hc hb => (h.coherent hc ((extends_addText ..).clean hb)).addText _ _, fun hc => ?_⟩
  have hbefore := h.seated fun hx => (extends_addText ..).clean (hc hx)
  have hsound : (run.location before.size (before ++ held).size).Sound src :=
    hrun.sound_location ⟨before, held ++ t, by simp [htext], rfl⟩ ⟨before ++ held, t, htext, rfl⟩
  exact (hbefore.addTextBehind held hsound (Nat.le_refl _)).mono
    (hrun.location_stop_le (by simp))

/-- A mark stands behind everything that was read before it. -/
theorem SeatedAt.mark {m : Mark} (hrun : run.LaidOut src mid top)
    (h : SeatedAt src clean lo run b pos pos [] (c :: cs))
    (hm : (b.context.lexeme c cs).mark = some m) :
    let text : Text := (c :: cs).take (b.context.lexeme c cs).width
    SeatedAt src clean lo run
      ((b.reportLexeme (run.location pos (pos + max text.size c.utf8Size))
        (b.context.lexeme c cs)).apply m (b.context.lexeme c cs).next text
        (run.location pos (pos + text.size)))
      (pos + text.size) (pos + text.size) [] ((c :: cs).drop (b.context.lexeme c cs).width) := by
  obtain ⟨-, hpos, htake, hfault⟩ := h.boundary (b.context.lexeme c cs).width
  refine ⟨?_, fun hc => Coherent.mark_of_clean _ _ (h.coherent hc) hm, fun hc => ?_⟩
  · obtain ⟨before, htext, -, rfl⟩ := h.at_run
    refine ⟨before ++ (c :: cs).take (b.context.lexeme c cs).width, ?_, by simp, by simp⟩
    rw [htext]
    simp
  have hb (hx : clean) : b.Clean := (extends_reportLexeme ..).clean
    ((extends_apply ..).clean (hc hx))
  have hmove := Context.Move.of_mark (Context.lexeme_move b.context c cs) hm
  have hreport := (h.seated hb).reportLexeme (hrun.sound_location hpos hfault)
    (b.context.lexeme c cs)
  refine Seated.mono ?_ (hrun.location_stop_le (Nat.le_add_right pos _))
  rw [reportLexeme_eq] at hreport ⊢
  refine hreport.apply m _ _ (hrun.sound_location hpos htake) (Nat.le_refl _) ?_ ?_
  · intro hx htag
    obtain ⟨-, hattr, hvalue, -⟩ := (h.coherent hx (hb hx)).closed (hmove.1 (.inl htag))
    exact ⟨hattr, hvalue⟩
  · intro hx hattr
    refine (h.coherent hx (hb hx)).value_eq_none fun quotes hq => ?_
    rw [hmove.2.2.1 hattr] at hq
    cases hq

end Steps

/-- **A run is read into its own place.** -/
theorem Seated.read {run : RawRun} {mid top : Nat} (hrun : run.LaidOut src mid top)
    (h : b.Seated src clean lo (run.locate 0)) (hcoh : clean → b.Coherent run.text)
    (hclean : clean → (b.read run 0 none run.text).Clean) :
    (b.read run 0 none run.text).Seated src clean lo (run.locate run.text.size) := by
  obtain ⟨stop, hstop⟩ := @read_rule_located run (SeatedAt src clean lo run)
    (fun hP hm => hP.content hrun hm) (fun hP _ _ => hP.release hrun)
    (fun hP hm => hP.mark hrun hm) b 0 none run.text
    ⟨⟨[], rfl, rfl, rfl⟩, fun hc _ => hcoh hc, fun _ => h⟩ nofun
  obtain ⟨before, htext, rfl, -⟩ := hstop.at_run
  rw [List.append_nil, List.append_nil] at htext
  have hread := hstop.seated hclean
  rwa [← htext] at hread

/-- The offset that is reached is where the run ends. -/
theorem Seated.readRun {run : RawRun} {top : Nat} (h : b.Seated src clean lo hi)
    (hrun : run.LaidOut src hi top) (hcoh : clean → b.Coherent [])
    (hclean : clean → (b.readRun run).Clean) :
    (b.readRun run).Seated src clean lo (b.readRun run).offset ∧ (b.readRun run).offset ≤ top := by
  have hread := ((h.withLedger (l := b.ledger.countRun) h.ledger).mono hrun.le_locate).read hrun
    (fun hc => (hcoh hc).restrict_nil) hclean
  have hend := hrun.locateEnd_size
  unfold Assembly.readRun at hclean ⊢
  dsimp only
  refine ⟨?_, hend ▸ hrun.locate_le (Nat.le_refl _)⟩
  rw [hend]
  exact { hread with
    reached := Nat.le_refl _
    offset := hrun.boundary_locate (Text.boundary_size _) }

/-! ## 3. Placing -/

theorem Seated.placeContent (h : b.Seated src clean lo hi) {n : Node} (hn : n.SeatedDeep src clean)
    (hle : hi ≤ n.location.start) : (b.placeContent n).Seated src clean lo n.location.stop := by
  unfold Assembly.placeContent
  split
  · exact h.addContent hn hle
  · exact (h.addContent hn hle).enter _ hn.self.sound.start_boundary

theorem Seated.placeInTag (h : b.Seated src clean lo hi) {n : Node} (hn : n.SeatedDeep src clean)
    (hle : hi ≤ n.location.start) (hfree : clean → b.value = none) :
    (b.placeInTag n).Seated src clean lo n.location.stop := by
  have hs := hn.self.sound
  unfold Assembly.placeInTag
  split
  · have hname := hn.seatedIn (fun _ => Nat.le_refl n.location.start)
      fun _ => Nat.le_refl n.location.stop
    exact (@Seated.openAttr _ _ _ _ _ h _ hs hle (some n) hname _ hfree).enter _ hs.start_boundary
  · exact h.addAmongAttrsBehind hn hle

theorem Seated.placeTagName (h : b.Seated src clean lo hi) {n : Node} (hn : n.SeatedDeep src clean)
    (hle : hi ≤ n.location.start) : (b.placeTagName n).Seated src clean lo n.location.stop := by
  have hs := hn.self.sound
  have h' := h.mono (hle.trans n.location.start_le_stop)
  unfold Assembly.placeTagName
  split
  · refine Seated.enter ?_ _ hs.start_boundary
    split
    · next t ht =>
      exact h'.setTag ht { h'.tag t ht with
        name := hn.seatedIn (fun hc => ((h.tag t ht).start.2 hc).2.trans hle)
          fun _ => Nat.le_refl _ } rfl
    · exact h'.addOut (hn.seatedIn (fun _ => h.le.trans hle) fun _ => Nat.le_refl _)
  · exact (h.report hs _).abortTag.placeContent hn hle

theorem Seated.placeBeforeValue (h : b.Seated src clean lo hi) {n : Node}
    (hn : n.SeatedDeep src clean) (hle : hi ≤ n.location.start) :
    (b.placeBeforeValue n).Seated src clean lo n.location.stop := by
  have hs := hn.self.sound
  have hle' := hle.trans n.location.start_le_stop
  have hstart (hc : clean) : b.attrStart lo ≤ n.location.start :=
    (h.offset_attrStart hc).2.trans hle
  have bare : ({ b with value := some ⟨.bare, n.location.start, [n]⟩ }.enter (.attrValue .bare)
      n.location.start).Seated src clean lo n.location.stop := by
    refine ((h.mono hle').openValue ⟨⟨hs.start_boundary, fun hc => ⟨hstart hc,
      n.location.start_le_stop⟩⟩, ?_⟩).enter _ hs.start_boundary
    exact hn.seatedIn (fun _ => Nat.le_refl _) fun _ => Nat.le_refl _
  unfold Assembly.placeBeforeValue
  split
  · exact bare
  · exact bare
  · exact h.fillSlot (hn.seatedIn hstart fun _ => Nat.le_refl _) hle' hs.stop_boundary
  · exact h.addAmongAttrsBehind hn hle

theorem Seated.reportJoined (h : b.Seated src clean lo hi) {n : Node} (hs : n.location.Sound src) :
    (b.reportJoined n).Seated src clean lo hi := by
  unfold Assembly.reportJoined
  split
  · exact h.report hs _
  · exact h

/-- **A node is placed behind everything that was read before it.** -/
theorem Seated.place (h : b.Seated src clean lo hi) {n : Node} (hn : n.SeatedDeep src clean)
    (hle : hi ≤ n.location.start) (hcoh : clean → b.Coherent []) :
    (b.place n).Seated src clean lo n.location.stop := by
  have hs := hn.self.sound
  unfold Assembly.place
  split <;> rename_i hb
  case h_7 => exact h.placeTagName hn hle
  case h_8 =>
    refine ((h.reportJoined hs).finishTagName.enter _ hs.start_boundary).placeInTag hn hle
      fun hc => ?_
    rw [enter_value, finishTagName_value, reportJoined_value]
    exact (hcoh hc).value_eq_none (by simp [hb])
  case h_9 => exact h.placeInTag hn hle fun hc => (hcoh hc).value_eq_none (by simp [hb])
  case h_10 =>
    split
    · exact h.mono (hle.trans n.location.start_le_stop)
    · refine ((h.reportJoined hs).closeAttr hle hs.start_boundary).placeInTag hn (Nat.le_refl _)
        fun hc => ?_
      rw [closeAttr_value, reportJoined_value]
      exact (hcoh hc).value_eq_none (by simp [hb])
  case h_11 => exact h.placeBeforeValue hn hle
  all_goals exact h.placeContent hn hle

theorem Seated.settle (h : b.Seated src clean lo hi) {location : Span} (hs : location.Sound src)
    (hle : hi ≤ location.start) : (b.settle location).Seated src clean lo location.start := by
  unfold Assembly.settle
  split
  · exact (h.report hs _).abortTag.mono hle
  · exact (h.mono hle).finishTagName.enter _ hs.start_boundary
  · exact h.closeAttr hle hs.start_boundary
  · exact h.mono hle

/-- **Control flow is placed behind everything that was read before it.** -/
theorem Seated.placeFlow (h : b.Seated src clean lo hi) {f : Flow}
    (hf : (Node.flow f).SeatedDeep src clean) (hle : hi ≤ f.location.start) (exit : Context) :
    (b.placeFlow f exit).Seated src clean lo f.location.stop := by
  have hs : f.location.Sound src := hf.self.sound
  unfold Assembly.placeFlow
  split
  · split
    · exact h.fillSlot (hf.seatedIn (fun hc => (h.offset_attrStart hc).2.trans hle)
        fun _ => Nat.le_refl _) (hle.trans f.location.start_le_stop) hs.stop_boundary
    · exact (h.addAmongAttrsBehind hf hle).enter _ hs.start_boundary
  · exact (h.addAmongAttrsBehind hf hle).enter _ hs.start_boundary
  · exact (h.addContent hf hle).enter _ hs.start_boundary

/-! ## 4. Ends -/

theorem Seated.settleAtEnd (h : b.Seated src clean lo b.offset) :
    b.settleAtEnd.Seated src clean lo b.offset := by
  unfold Assembly.settleAtEnd
  split
  · exact h.abortTag
  · exact h.finishTagName.enter _ h.offset
  · exact h.closeAttr (Nat.le_refl _) h.offset
  · exact h

theorem Seated.closeAnyAttr (h : b.Seated src clean lo hi) (hb : src.Boundary hi) :
    (b.closeAnyAttr hi).Seated src clean lo hi := by
  unfold Assembly.closeAnyAttr
  split
  · exact h.closeAttr (Nat.le_refl _) hb
  · exact h

theorem Seated.closeAnyComment (h : b.Seated src clean lo hi) (hb : src.Boundary hi) :
    (b.closeAnyComment hi).Seated src clean lo hi := by
  unfold Assembly.closeAnyComment
  split
  · exact (h.endComment (Nat.le_refl _) hb).enter _ hb
  · exact h

theorem Seated.closeDrafts (h : b.Seated src clean lo b.offset) :
    b.closeDrafts.Seated src clean lo b.offset := by
  rw [closeDrafts_eq]
  exact (((h.settleAtEnd.closeValue (Nat.le_refl _) h.offset).closeAnyAttr h.offset).closeTag _
    (Nat.le_refl _) h.offset _).closeAnyComment h.offset

/-- What is left open begins at a character. -/
theorem Seated.boundary_openConstruct? (h : b.Seated src clean lo hi) {construct : Construct}
    {start : Nat} (ho : b.openConstruct? = some (construct, start)) : src.Boundary start := by
  unfold openConstruct? at ho
  split at ho <;> cases ho
  all_goals first
    | exact (h.tag _ ‹b.tag = some _›).start.1
    | exact (h.comment _ ‹b.comment = some _›).start.1
    | exact (h.value _ ‹b.value = some _›).start.1
    | exact (h.attr _ ‹b.attr = some _›).start.1

theorem Seated.endBranch (h : b.Seated src clean lo b.offset) :
    b.endBranch.Seated src clean lo b.offset := by
  unfold Assembly.endBranch
  split
  · exact h.closeDrafts
  · next construct start ho =>
    exact h.closeDrafts.report
      (Span.sound_upTo (h.settleAtEnd.boundary_openConstruct? ho) h.offset) _

theorem Seated.endBlock (h : b.Seated src clean lo b.offset) (block : BlockKind) :
    (b.endBlock block).Seated src clean lo b.offset := by
  unfold Assembly.endBlock Assembly.checkContext
  split
  · have hstart : src.Boundary (b.rawStart.getD b.offset) := by
      cases hr : b.rawStart with
      | none => exact h.offset
      | some o => exact h.rawStart o hr
    have hreport := h.report (Span.sound_upTo hstart h.offset)
      (.blockChangesContext block b.entry.name b.context.name)
    exact Seated.closeDrafts (b := b.report _ _) hreport
  · exact h.closeDrafts

/-- The nodes of a block or branch stand between its ends. -/
theorem Seated.nodes {hi' : Nat} (h : b.Seated src clean lo hi) (hle : hi ≤ hi') :
    SeatedIn src clean lo hi' b.nodes :=
  h.out.reverse.mono (fun _ => Nat.le_refl _) fun _ => hle

end

end Assembly

/-! ## 5. The pass -/

section

variable {src : Text} {clean : Prop} {lo mid top : Nat} {b : Assembly}

/-- The run that is collected, if there is one, stands between two offsets. -/
def CollectedBetween (src : Text) (lo : Nat) : Option RawRun → Nat → Prop
  | none, hi => lo ≤ hi
  | some run, hi => run.LaidOut src lo hi

namespace Assembly

theorem Seated.readCollected {run : Option RawRun} (h : b.Seated src clean lo b.offset)
    (hrun : CollectedBetween src b.offset run mid) (hcoh : clean → b.Coherent [])
    (hclean : clean → (b.readCollected run).Clean) :
    (b.readCollected run).Seated src clean lo (b.readCollected run).offset
      ∧ (b.readCollected run).offset ≤ mid := by
  cases run with
  | none => exact ⟨h, hrun⟩
  | some run => exact h.readRun hrun hcoh hclean

theorem Seated.collect {run : Option RawRun} {text : Text} {location : Span}
    (h : b.Seated src clean lo b.offset) (hrun : CollectedBetween src b.offset run mid)
    (hle : mid ≤ location.start) (hne : text ≠ []) (htext : location.Carries src text)
    (hcoh : clean → b.Coherent []) (hclean : clean → (b.collect run text location).1.Clean) :
    (b.collect run text location).1.Seated src clean lo (b.collect run text location).1.offset
      ∧ (b.collect run text location).2.LaidOut src (b.collect run text location).1.offset
        location.stop := by
  cases run with
  | none => exact ⟨h, RawRun.laidOut_single hne htext (Nat.le_trans hrun hle) (Nat.le_refl _)⟩
  | some run =>
    unfold Assembly.collect at hclean ⊢
    dsimp only at hclean ⊢
    split at hclean <;> rename_i hj
    · rw [if_pos hj]
      exact ⟨h, hrun.push hne htext hle (Nat.le_refl _)⟩
    · rw [if_neg hj]
      obtain ⟨hread, hmid⟩ := h.readRun hrun hcoh hclean
      exact ⟨hread, RawRun.laidOut_single hne htext (hmid.trans hle) (Nat.le_refl _)⟩

/-- What was placed ends where the source is read to. -/
theorem Seated.reach (h : b.Seated src clean lo mid) (hb : src.Boundary mid) :
    (b.reach mid).Seated src clean lo (b.reach mid).offset ∧ (b.reach mid).offset ≤ mid := by
  have hmax : max b.offset mid = mid := Nat.max_eq_right h.reached
  unfold Assembly.reach
  dsimp only
  rw [hmax]
  exact ⟨{ h with reached := Nat.le_refl _, offset := hb }, Nat.le_refl _⟩

end Assembly

end

theorem reconcile_sound {src : Text} {l : Ledger} {location : Span} (h : l.Sound src)
    (hs : location.Sound src) (head : FlowHead) (entry : Context) (exits : Exits) :
    (reconcile l location head entry exits).2.Sound src :=
  reconcile_induct (P := Ledger.Sound src) (fun _ hl => hl.report hs _) h head entry exits

/-- Parameters stand between two offsets, and what is in them where it may. -/
def ParamsSeated (src : Text) (clean : Prop) (lo : Nat) (params : List Param) (hi : Nat) : Prop :=
  ∀ p ∈ params, p.location.Lies src clean lo hi
    ∧ SeatedIn src clean p.location.start p.location.stop p.value.nodes

mutual

/-- **Nodes that are fed to an assembly get their places.** -/
theorem feedNodes_seated {src : Text} {clean : Prop} {lo : Nat} : ∀ (nodes : List Node)
    (b : Assembly) (run : Option RawRun) {mid top : Nat}, b.Seated src clean lo b.offset →
    CollectedBetween src b.offset run mid → LaidBetween src mid nodes top →
    (clean → b.Coherent []) → (clean → (feedNodes b run nodes).Clean) →
    (feedNodes b run nodes).Seated src clean lo (feedNodes b run nodes).offset
      ∧ (feedNodes b run nodes).offset ≤ top
  | [], b, run, mid, top, h, hrun, hlaid, hcoh, hclean => by
    rw [feedNodes] at hclean ⊢
    obtain ⟨hread, hmid⟩ := h.readCollected hrun hcoh hclean
    exact ⟨hread, hmid.trans hlaid.between⟩
  | n :: nodes, b, run, mid, top, h, hrun, hlaid, hcoh, hclean => by
    obtain ⟨hstart, hn, hnodes⟩ := laidBetween_cons hlaid
    rw [feedNodes] at hclean ⊢
    cases ht : n.rawText? with
    | some text =>
      simp only [ht] at hclean ⊢
      have hc (hx : clean) := (feedNodes_extends nodes _ _).clean (hclean hx)
      obtain ⟨hne, htext⟩ := (hn n n.mem_walk).carries text ht
      obtain ⟨hread, hlater⟩ := h.collect hrun hstart hne htext hcoh hc
      exact feedNodes_seated nodes _ _ hread hlater hnodes (fun hx => (hcoh hx).collect (hc hx))
        hclean
    | none =>
      simp only [ht] at hclean ⊢
      have hc (hx : clean) := (feedNodes_extends nodes _ _).clean (hclean hx)
      have hc' (hx : clean) := (feedNode_extends n _).clean (hc hx)
      have hcoh' (hx : clean) := (hcoh hx).readCollected (hc' hx)
      obtain ⟨hread, hmid⟩ := h.readCollected hrun hcoh hc'
      obtain ⟨hfed, hstop⟩ := feedNode_seated n _ ht hn hread (hmid.trans hstart) hcoh' hc
      exact feedNodes_seated nodes _ none hfed hstop hnodes
        (fun hx => feedNode_coherent n _ (hcoh' hx) (hc hx)) hclean

theorem feedNode_seated {src : Text} {clean : Prop} {lo : Nat} : ∀ (n : Node) (b : Assembly),
    n.rawText? = none → (∀ m ∈ n.walk, m.LaidOut src) → b.Seated src clean lo b.offset →
    b.offset ≤ n.location.start → (clean → b.Coherent []) → (clean → (feedNode b n).Clean) →
    (feedNode b n).Seated src clean lo (feedNode b n).offset
      ∧ (feedNode b n).offset ≤ n.location.stop
  | .call id location callee params, b, _, hn, h, hle, hcoh, hclean => by
    have hs := (hn _ (Node.mem_walk _)).sound
    rw [feedNode] at hclean ⊢
    have hc (hx : clean) := (Assembly.extends_place ..).clean
      ((Assembly.extends_reach ..).clean (hclean hx))
    obtain ⟨hledger, hparams⟩ := rewriteParams_seated params b.ledger
      (fun p hp => Node.laidBetween_of_part hn (List.mem_map_of_mem hp)) h.ledger hc
    have hnode : (Node.call id location callee (rewriteParams b.ledger params).1).SeatedDeep src
        clean := Node.seatedDeep_of_parts hs fun p hp => by
      obtain ⟨q, hq, rfl⟩ := List.mem_map.mp hp
      exact hparams q hq
    have hplaced := ((h.withLedger hledger).place hnode hle fun hx => (hcoh hx).ledger _).reach
      hs.stop_boundary
    exact ⟨hplaced.1, hplaced.2⟩
  | .binding id location var value, b, _, hn, h, hle, hcoh, hclean => by
    have hs := (hn _ (Node.mem_walk _)).sound
    rw [feedNode] at hclean ⊢
    have hc (hx : clean) := (Assembly.extends_place ..).clean
      ((Assembly.extends_reach ..).clean (hclean hx))
    obtain ⟨-, -, hbody⟩ := Node.laidBetween_of_part hn List.mem_cons_self
    obtain ⟨hledger, hvalue⟩ := rewriteValue_seated value b.ledger .letContent location hs hbody
      h.ledger hc
    have hnode : (Node.binding id location var
        (rewriteValue b.ledger .letContent location value).1).SeatedDeep src clean :=
      Node.seatedDeep_of_part hs rfl hvalue
    have hplaced := ((h.withLedger hledger).place hnode hle fun hx => (hcoh hx).ledger _).reach
      hs.stop_boundary
    exact ⟨hplaced.1, hplaced.2⟩
  | .flow flow, b, _, hn, h, hle, hcoh, hclean => by
    have hs : flow.location.Sound src := (hn _ (Node.mem_walk _)).sound
    rw [feedNode] at hclean ⊢
    have hc (hx : clean) := (Assembly.extends_placeFlow ..).clean
      ((Assembly.extends_reach ..).clean (hclean hx))
    have hc' (hx : clean) := (rewriteFlow_extends flow _ _).clean (hc hx)
    have hsettle (hx : clean) := (hcoh hx).settle flow.location (hc' hx)
    have hb := h.settle hs hle
    obtain ⟨hledger, hflow, hloc⟩ := rewriteFlow_seated flow _ _ hs
      (fun b hb => (Node.laidBetween_of_part hn (List.mem_map_of_mem hb)).2.2) hb.ledger
      (fun hx => (hsettle hx).2) hc
    have hplaced := ((hb.withLedger hledger).placeFlow hflow (Nat.le_of_eq (by rw [hloc]))
      (rewriteFlow (b.settle flow.location).ledger (b.settle flow.location).context flow).2.1).reach
      (by rw [hloc]; exact hs.stop_boundary)
    exact ⟨hplaced.1, hplaced.2.trans (Nat.le_of_eq (by rw [hloc]; rfl))⟩
  | .print id location expr, b, _, hn, h, hle, hcoh, _ => by
    have hs : (Node.print id location expr).Seated src clean := Node.seated_of_laidOut hn
    rw [feedNode]
    · exact (h.place (Node.seatedDeep_of_parts hs.sound nofun) hle hcoh).reach hs.sound.stop_boundary
    all_goals simp
  | .raw .., _, ht, _, _, _, _, _ => by cases ht
  | .openTag .., _, _, hn, _, _, _, _ | .closeTag .., _, _, hn, _, _, _, _
  | .attr .., _, _, hn, _, _, _, _ | .attrValue .., _, _, hn, _, _, _, _
  | .comment .., _, _, hn, _, _, _, _ => by
    cases (hn _ (Node.mem_walk _)).written

theorem rewriteFlow_seated {src : Text} {clean : Prop} : ∀ (flow : Flow) (l : Ledger)
    (entry : Context), flow.location.Sound src →
    BranchesBetween src flow.location.start flow.branches flow.location.stop → l.Sound src →
    (clean → entry.isSettled = true) → (clean → (rewriteFlow l entry flow).2.2.Clean) →
    (rewriteFlow l entry flow).2.2.Sound src
      ∧ (Node.flow (rewriteFlow l entry flow).1).SeatedDeep src clean
      ∧ (rewriteFlow l entry flow).1.location = flow.location
  | ⟨id, location, head, branches⟩, l, entry, hs, hlaid, hl, hentry, hclean => by
    have node {rebuilt : List Branch}
        (h : ∀ b ∈ rebuilt, SeatedIn src clean location.start location.stop b.nodes) :
        (Node.flow ⟨id, location, head, rebuilt⟩).SeatedDeep src clean := by
      refine Node.seatedDeep_of_parts hs fun p hp => ?_
      obtain ⟨b, hb, rfl⟩ := List.mem_map.mp hp
      exact ⟨hs.lies (fun _ => Nat.le_refl _) fun _ => Nat.le_refl _, h b hb⟩
    rw [rewriteFlow] at hclean ⊢
    dsimp only at hclean ⊢
    split at hclean
    · next hd =>
      rw [if_pos hd]
      exact ⟨hl.report hs _, node fun b hb => (hlaid b hb).seatedIn, rfl⟩
    · next hd =>
      rw [if_neg hd]
      have hc (hx : clean) := (reconcile_extends _ location head entry _).clean (hclean hx)
      obtain ⟨hledger, hbranches⟩ := rewriteBranches_seated branches
        { l with depth := l.depth + 1 } entry hlaid hs.start_boundary hl hentry hc
      have hafter : Ledger.Sound src { (rewriteBranches { l with depth := l.depth + 1 } entry
          location.start branches).2.2 with depth := l.depth } := hledger
      exact ⟨reconcile_sound hafter hs head entry _, node hbranches, rfl⟩

theorem rewriteBranches_seated {src : Text} {clean : Prop} : ∀ (branches : List Branch)
    (l : Ledger) (entry : Context) {offset stop : Nat}, BranchesBetween src offset branches stop →
    src.Boundary offset → l.Sound src → (clean → entry.isSettled = true) →
    (clean → (rewriteBranches l entry offset branches).2.2.Clean) →
    (rewriteBranches l entry offset branches).2.2.Sound src
      ∧ ∀ b ∈ (rewriteBranches l entry offset branches).1, SeatedIn src clean offset stop b.nodes
  | [], l, entry, offset, stop, _, _, hl, _, _ => by
    rw [rewriteBranches]
    exact ⟨hl, nofun⟩
  | branch :: branches, l, entry, offset, stop, hlaid, hb, hl, hentry, hclean => by
    obtain ⟨hfirst, hlater⟩ := List.forall_mem_cons.mp hlaid
    rw [rewriteBranches] at hclean ⊢
    dsimp only at hclean ⊢
    have hc (hx : clean) := (rewriteBranches_extends ..).clean (hclean hx)
    obtain ⟨hledger, hbranch⟩ := rewriteBranch_seated branch l entry hfirst hb hl hentry hc
    obtain ⟨hledger', hbranches⟩ := rewriteBranches_seated branches _ entry hlater hb hledger
      hentry hclean
    exact ⟨hledger', List.forall_mem_cons.mpr ⟨hbranch, hbranches⟩⟩

theorem rewriteBranch_seated {src : Text} {clean : Prop} : ∀ (branch : Branch) (l : Ledger)
    (entry : Context) {offset stop : Nat}, LaidBetween src offset branch.nodes stop →
    src.Boundary offset → l.Sound src → (clean → entry.isSettled = true) →
    (clean → (rewriteBranch l entry offset branch).2.2.Clean) →
    (rewriteBranch l entry offset branch).2.2.Sound src
      ∧ SeatedIn src clean offset stop (rewriteBranch l entry offset branch).1.nodes
  | ⟨id, kind, nodes⟩, l, entry, offset, stop, hlaid, hb, hl, hentry, hclean => by
    rw [rewriteBranch] at hclean ⊢
    dsimp only at hclean ⊢
    have hc (hx : clean) := (Assembly.extends_endBranch _).clean (hclean hx)
    obtain ⟨hfed, hstop⟩ := feedNodes_seated nodes _ none
      (Assembly.seated_start (l := l.countBranch) hl entry true hb) (Nat.le_refl _) hlaid
      (fun hx => Assembly.coherent_start _ _ _ (hentry hx)) hc
    exact ⟨hfed.endBranch.ledger, hfed.endBranch.nodes hstop⟩

theorem rewriteParams_seated {src : Text} {clean : Prop} {lo hi : Nat} : ∀ (params : List Param)
    (l : Ledger), (∀ p ∈ params, p.location.Sound src ∧ (lo ≤ p.location.start ∧ p.location.stop ≤ hi)
      ∧ LaidBetween src p.location.start p.value.nodes p.location.stop) → l.Sound src →
    (clean → (rewriteParams l params).2.Clean) →
    (rewriteParams l params).2.Sound src ∧ ParamsSeated src clean lo (rewriteParams l params).1 hi
  | [], l, _, hl, _ => by
    rw [rewriteParams]
    exact ⟨hl, nofun⟩
  | ⟨id, location, name, value⟩ :: params, l, hlaid, hl, hclean => by
    obtain ⟨⟨hs, hwithin, hbody⟩, hlater⟩ := List.forall_mem_cons.mp hlaid
    rw [rewriteParams, rewriteParam] at hclean ⊢
    dsimp only at hclean ⊢
    have hc (hx : clean) := (rewriteParams_extends ..).clean (hclean hx)
    obtain ⟨hledger, hvalue⟩ := rewriteValue_seated value l .paramContent location hs hbody hl hc
    obtain ⟨hledger', hparams⟩ := rewriteParams_seated params _ hlater hledger hclean
    exact ⟨hledger', List.forall_mem_cons.mpr
      ⟨⟨hs.lies (fun _ => hwithin.1) fun _ => hwithin.2, hvalue⟩, hparams⟩⟩

/-- **The nodes of a content block stand where the block does.** -/
theorem rewriteValue_seated {src : Text} {clean : Prop} : ∀ (value : Value) (l : Ledger)
    (block : BlockKind) (location : Span), location.Sound src →
    LaidBetween src location.start value.nodes location.stop → l.Sound src →
    (clean → (rewriteValue l block location value).2.Clean) →
    (rewriteValue l block location value).2.Sound src
      ∧ SeatedIn src clean location.start location.stop
        (rewriteValue l block location value).1.nodes
  | .expr expr, l, block, location, _, _, hl, _ => by
    rw [rewriteValue]
    exact ⟨hl, seatedIn_nil⟩
  | .content kind nodes, l, block, location, hs, hlaid, hl, hclean => by
    rw [rewriteValue] at hclean ⊢
    dsimp only at hclean ⊢
    split at hclean
    · next entry hentry =>
      have hc (hx : clean) := (Assembly.extends_endBlock _ block).clean (hclean hx)
      obtain ⟨hfed, hstop⟩ := feedNodes_seated nodes _ none
        (Assembly.seated_start (l := l.countBlock) hl entry false hs.start_boundary)
        (Nat.le_refl _) hlaid
        (fun _ => Assembly.coherent_start _ _ _ (Context.isSettled_of_entry? hentry)) hc
      exact ⟨(hfed.endBlock block).ledger, (hfed.endBlock block).nodes hstop⟩
    · exact enterNodes_seated nodes l.countBlock hlaid hl hclean

theorem enterNodes_seated {src : Text} {clean : Prop} : ∀ (nodes : List Node) (l : Ledger)
    {lo hi : Nat}, LaidBetween src lo nodes hi → l.Sound src →
    (clean → (enterNodes l nodes).2.Clean) →
    (enterNodes l nodes).2.Sound src ∧ SeatedIn src clean lo hi (enterNodes l nodes).1
  | [], l, lo, hi, _, hl, _ => by
    rw [enterNodes]
    exact ⟨hl, seatedIn_nil⟩
  | n :: nodes, l, lo, hi, hlaid, hl, hclean => by
    obtain ⟨hstart, hn, hnodes⟩ := laidBetween_cons hlaid
    rw [enterNodes] at hclean ⊢
    dsimp only at hclean ⊢
    have hc (hx : clean) := (enterNodes_extends ..).clean (hclean hx)
    obtain ⟨hledger, hfirst, hloc⟩ := enterNode_seated n l hn hl hc
    obtain ⟨hledger', hlater⟩ := enterNodes_seated nodes _ hnodes hledger hclean
    have hstop := n.location.start_le_stop
    refine ⟨hledger', seatedIn_cons.mpr ⟨⟨?_, hfirst⟩, ?_⟩⟩
    · exact hfirst.self.sound.lies (fun _ => hloc ▸ hstart) fun _ => hloc ▸ hnodes.between.le
    · exact hlater.mono (fun _ => hstart.trans hstop) fun _ => Nat.le_refl _

theorem enterNode_seated {src : Text} {clean : Prop} : ∀ (n : Node) (l : Ledger),
    (∀ m ∈ n.walk, m.LaidOut src) → l.Sound src → (clean → (enterNode l n).2.Clean) →
    (enterNode l n).2.Sound src ∧ (enterNode l n).1.SeatedDeep src clean
      ∧ (enterNode l n).1.location = n.location
  | .call id location callee params, l, hn, hl, hclean => by
    have hs := (hn _ (Node.mem_walk _)).sound
    rw [enterNode] at hclean ⊢
    obtain ⟨hledger, hparams⟩ := rewriteParams_seated params l
      (fun p hp => Node.laidBetween_of_part hn (List.mem_map_of_mem hp)) hl hclean
    refine ⟨hledger, Node.seatedDeep_of_parts hs fun p hp => ?_, rfl⟩
    obtain ⟨q, hq, rfl⟩ := List.mem_map.mp hp
    exact hparams q hq
  | .binding id location var value, l, hn, hl, hclean => by
    have hs := (hn _ (Node.mem_walk _)).sound
    rw [enterNode] at hclean ⊢
    obtain ⟨-, -, hbody⟩ := Node.laidBetween_of_part hn List.mem_cons_self
    obtain ⟨hledger, hvalue⟩ := rewriteValue_seated value l .letContent location hs hbody hl hclean
    exact ⟨hledger, Node.seatedDeep_of_part hs rfl hvalue, rfl⟩
  | .flow ⟨id, location, head, branches⟩, l, hn, hl, hclean => by
    have hs : location.Sound src := (hn _ (Node.mem_walk _)).sound
    rw [enterNode, enterFlow] at hclean ⊢
    have hlaid : BranchesBetween src location.start branches location.stop := fun b hb =>
      (Node.laidBetween_of_part hn (List.mem_map_of_mem hb)).2.2
    obtain ⟨hledger, hbranches⟩ := enterBranches_seated branches l hlaid hl hclean
    refine ⟨hledger, Node.seatedDeep_of_parts hs fun p hp => ?_, rfl⟩
    obtain ⟨b, hb, rfl⟩ := List.mem_map.mp hp
    exact ⟨hs.lies (fun _ => Nat.le_refl _) fun _ => Nat.le_refl _, hbranches b hb⟩
  | .raw .., l, hn, hl, _ | .print .., l, hn, hl, _ => by
    rw [enterNode]
    · exact ⟨hl, Node.seatedDeep_of_parts (hn _ (Node.mem_walk _)).sound nofun, rfl⟩
    all_goals simp
  | .openTag .., _, hn, _, _ | .closeTag .., _, hn, _, _ | .attr .., _, hn, _, _
  | .attrValue .., _, hn, _, _ | .comment .., _, hn, _, _ => by
    cases (hn _ (Node.mem_walk _)).written

theorem enterBranches_seated {src : Text} {clean : Prop} {lo hi : Nat} :
    ∀ (branches : List Branch) (l : Ledger), BranchesBetween src lo branches hi → l.Sound src →
    (clean → (enterBranches l branches).2.Clean) →
    (enterBranches l branches).2.Sound src
      ∧ ∀ b ∈ (enterBranches l branches).1, SeatedIn src clean lo hi b.nodes
  | [], l, _, hl, _ => by
    rw [enterBranches]
    exact ⟨hl, nofun⟩
  | ⟨id, kind, nodes⟩ :: branches, l, hlaid, hl, hclean => by
    obtain ⟨hfirst, hlater⟩ := List.forall_mem_cons.mp hlaid
    rw [enterBranches, enterBranch] at hclean ⊢
    dsimp only at hclean ⊢
    have hc (hx : clean) := (enterBranches_extends ..).clean (hclean hx)
    obtain ⟨hledger, hbranch⟩ := enterNodes_seated nodes l hfirst hl hc
    obtain ⟨hledger', hbranches⟩ := enterBranches_seated branches _ hlater hledger hclean
    exact ⟨hledger', List.forall_mem_cons.mpr ⟨hbranch, hbranches⟩⟩

end

/-! ## 6. Templates -/

/-- **Places nest.**  Whatever is reported, each node that comes out of a run over a template, each
stretch of a node in which others stand and each report covers whole characters of the source.  If
nothing is reported, the template's place covers all nodes, a node's place its parts, and a part all
nodes in it, at any depth. -/
theorem Template.rewrite_nested {src : Text} {kind : ContentKind} {ids ids' : IdSource}
    {t : Template} (hread : Template.read src kind ids = .ok (t, ids')) (config : Config)
    (fresh : IdSource) :
    let r := t.rewrite config fresh
    r.result.location.Sound src ∧ (∀ d ∈ r.diagnostics, d.location.Sound src)
      ∧ (∀ n ∈ walk r.result.nodes, n.location.Sound src ∧ ∀ p ∈ n.parts, p.1.Sound src)
      ∧ (r.diagnostics = [] → ∀ n ∈ walk r.result.nodes,
          n.location.Within r.result.location
            ∧ (∀ m ∈ n.walk, m.location.Within n.location)
            ∧ ∀ p ∈ n.parts, p.1.Within n.location ∧ ∀ m ∈ walk p.2, m.location.Within p.1) := by
  obtain ⟨hstart, hstop, hlaid⟩ := Template.laidOut hread
  have hs : t.location.Sound src := Span.sound_of_boundary
    (by rw [hstart]; exact Text.boundary_zero src) (by rw [hstop]; exact Text.boundary_size src)
  let last := (rewriteValue (.start config fresh) .template t.location
    (.content (some t.kind) t.nodes)).2
  obtain ⟨hledger, hnodes⟩ := @rewriteValue_seated src last.Clean (.content (some t.kind) t.nodes)
    (.start config fresh) .template t.location hs (by rw [hstart, hstop]; exact hlaid) nofun fun hc => hc
  have hdeep (n : Node) (hn : n ∈ walk (t.rewrite config fresh).result.nodes) :
      n.SeatedDeep src last.Clean ∧ (last.Clean → n.location.Within t.location) := by
    obtain ⟨m, hm, hn⟩ := mem_walk_iff.mp hn
    obtain ⟨hlies, hm⟩ := hnodes m hm
    refine ⟨fun k hk => hm k (m.walkClosed n hn hk), fun hc => ?_⟩
    exact (hm.within hc hn).trans (hlies.within hc)
  refine ⟨hs, fun d hd => hledger d (List.mem_reverse.mp hd), fun n hn => ?_, fun hnil n hn => ?_⟩
  · exact ⟨(hdeep n hn).1.self.sound, fun p hp => ((hdeep n hn).1.parts hp).1.sound⟩
  · have hc : last.Clean := List.reverse_eq_nil_iff.mp hnil
    obtain ⟨hn, hwithin⟩ := hdeep n hn
    refine ⟨hwithin hc, fun m hm => hn.within hc hm, fun p hp => ?_⟩
    obtain ⟨hpart, hin⟩ := hn.parts hp
    refine ⟨hpart.within hc, fun m hm => ?_⟩
    obtain ⟨k, hk, hm⟩ := mem_walk_iff.mp hm
    exact ((hin k hk).2.within hc hm).trans ((hin k hk).1.within hc)

/-- A tag with a value that is joined across a special character, a comment and, in a call, the
content of a parameter. -/
theorem Template.rewrite_nested_of_clean :
    ∃ t ids, Template.read ("<a b=\"x\x7bsp\x7dy\"><!--c-->\x7bcall .f\x7d" ++
          "\x7bparam p kind=\"html\"\x7d<i \x7b$n\x7d/>\x7b/param\x7d\x7b/call\x7d").toList
          .html (.startingAt 0) = .ok (t, ids)
      ∧ (t.rewrite {} ids).diagnostics = []
      ∧ (walk (t.rewrite {} ids).result.nodes).length = 13
      ∧ ∀ n ∈ walk (t.rewrite {} ids).result.nodes, n.location.Within t.location
        ∧ ∀ m ∈ n.walk, m.location.Within n.location := by
  generalize hsrc : ("<a b=\"x\x7bsp\x7dy\"><!--c-->\x7bcall .f\x7d" ++
    "\x7bparam p kind=\"html\"\x7d<i \x7b$n\x7d/>\x7b/param\x7d\x7b/call\x7d").toList = src
  have hcheck : (Template.read src .html (.startingAt 0)).toOption.any (fun r =>
      (r.1.rewrite {} r.2).diagnostics.isEmpty
        && (walk (r.1.rewrite {} r.2).result.nodes).length == 13) = true := by
    rw [← hsrc]
    decide +kernel
  cases hread : Template.read src .html (.startingAt 0) with
  | error r =>
    rw [hread] at hcheck
    cases hcheck
  | ok r =>
    obtain ⟨t, ids⟩ := r
    rw [hread] at hcheck
    obtain ⟨hclean, hlength⟩ := Bool.and_eq_true_iff.mp hcheck
    have hclean := List.isEmpty_iff.mp hclean
    have hnest := (Template.rewrite_nested hread {} ids).2.2.2 hclean
    exact ⟨t, ids, rfl, hclean, beq_iff_eq.mp hlength,
      fun n hn => ⟨(hnest n hn).1, (hnest n hn).2.1⟩⟩

end TemplateMarkup
