/-
# Stretches of content

`Context.Takes here held rest next` says that text which begins with `held` is read from context
`here` on as content, up to the end of `held`, where `rest` is left and the context is `next`.

What is left to read has a say in that, so a stretch that is cut out of its text need not be read
alone as it was read there.  In ordinary content, in a declaration and in cdata it is
(`Takes.alone`).  In an element whose body is text it is not if it ends with the name of the
element's close tag, which was no close tag with more behind it.
-/
import TemplateMarkup.Proofs.Html.Canonical
import TemplateMarkup.Proofs.Html.Drafts

namespace TemplateMarkup

/-! ## 1. How much a lexeme takes -/

namespace Text

theorem run_le_length (p : Char → Bool) (t : Text) : run p t ≤ t.length := by
  induction t with
  | nil => exact Nat.le_refl _
  | cons c cs ih =>
    rw [run]
    split
    · exact Nat.succ_le_succ ih
    · exact Nat.zero_le _

theorem length_le_of_beginsWith {lead t : Text} (h : beginsWith lead t = true) :
    lead.length ≤ t.length := by
  obtain ⟨rest, rfl⟩ := exists_of_beginsWith h
  simp

end Text

namespace Lexeme

theorem width_atAngle_le (cs : Text) : (atAngle cs).width ≤ cs.length + 1 := by
  unfold atAngle
  split
  · next h => exact Nat.succ_le_succ (Text.length_le_of_beginsWith h)
  · split
    · next h => exact Nat.succ_le_succ (Text.length_le_of_beginsWith h)
    · split
      · next h =>
        rcases (Bool.or_eq_true _ _).mp h with h | h <;>
          exact Nat.succ_le_succ (Text.length_le_of_beginsWith h)
      · split
        · exact Nat.le_refl _
        · exact Nat.le_refl _
        · split <;> exact Nat.succ_le_succ (Nat.succ_le_succ (Nat.zero_le _))
        · split <;> exact Nat.succ_le_succ (Nat.zero_le _)

theorem width_inRcdata_le (e : Rcdata) (t : Text) : (inRcdata e t).width ≤ t.length := by
  unfold inRcdata
  split
  · exact Nat.le_refl _
  · next h =>
    have hc : closesElement e t = true := (Text.of_seek_eq_some h).1
    unfold closesElement at hc
    cases ha : Text.after? ['<', '/'] t with
    | none => rw [ha] at hc; cases hc
    | some rest =>
      rw [Text.eq_append_of_after? ha]
      simp [marking, tagStart]
  · next h => exact Nat.le_of_lt (Text.of_seek_eq_some h).2

theorem width_inComment_le (t : Text) : (inComment t).width ≤ t.length := by
  unfold inComment
  split
  · exact Nat.le_refl _
  · next h => exact Text.length_le_of_beginsWith (Text.of_seek_eq_some h).1
  · next h => exact Nat.le_of_lt (Text.of_seek_eq_some h).2

theorem width_inDelimited_le (here : Context) (stop t : Text) :
    (inDelimited here stop t).width ≤ t.length := by
  unfold inDelimited
  split
  · exact Nat.le_refl _
  · next n h =>
    obtain ⟨hbegins, hlt⟩ := Text.of_seek_eq_some h
    have := Text.length_le_of_beginsWith hbegins
    rw [List.length_drop] at this
    show n + stop.length ≤ t.length
    omega

end Lexeme

/-- **A lexeme takes no more than there is.** -/
theorem Context.width_lexeme_le (here : Context) (c : Char) (cs : Text) :
    (here.lexeme c cs).width ≤ (c :: cs).length := by
  have hrun (p : Char → Bool) := Text.run_le_length p (c :: cs)
  have hzero : 0 ≤ (c :: cs).length := Nat.zero_le _
  have hone : 1 ≤ (c :: cs).length := Nat.succ_le_succ (Nat.zero_le _)
  cases here with
  | pcdata =>
    simp only [lexeme, Lexeme.inPcdata]
    split
    · exact Lexeme.width_atAngle_le cs
    · exact Nat.succ_le_succ (Text.run_le_length _ cs)
  | rcdata e => exact Lexeme.width_inRcdata_le ..
  | comment => exact Lexeme.width_inComment_le _
  | declaration | cdata => exact Lexeme.width_inDelimited_le ..
  | tagName part =>
    cases part <;> simp only [lexeme, Lexeme.inTagNameAt] <;> repeat' split
    all_goals first | exact hrun _ | exact hzero
  | beforeAttrName =>
    simp only [lexeme, Lexeme.inTag]
    repeat' split
    case isTrue.isTrue h =>
      exact Nat.succ_le_succ (Text.length_le_of_beginsWith h)
    all_goals first | exact hrun _ | exact hone | exact hzero
  | attrName part sep drop =>
    simp only [lexeme, Lexeme.inAttrNameAt, Lexeme.atAttrNameEnd]
    cases part <;> repeat' split
    all_goals first | exact hone | exact hzero
  | beforeAttrValue =>
    simp only [lexeme, Lexeme.beforeValue]
    repeat' split
    all_goals first | exact hrun _ | exact hone | exact hzero
  | attrValue quotes =>
    simp only [lexeme, Lexeme.inValue]
    split
    · split
      · exact hrun Lexeme.inBareValue
      · exact hzero
    · next quote _ =>
      split
      · exact hone
      · exact hrun (· != quote)

/-- Content without a fault lies within the text that is left. -/
theorem Context.exists_lexeme_eq_content {here : Context} {c : Char} {cs : Text}
    (hm : (here.lexeme c cs).mark = none) (hf : (here.lexeme c cs).fault = none) :
    ∃ w ≤ cs.length, here.lexeme c cs = Lexeme.content (here.lexeme c cs).next (w + 1) := by
  have hpos := (Context.Move.of_content (lexeme_move here c cs) hm).1
  have hle := width_lexeme_le here c cs
  generalize here.lexeme c cs = l at *
  obtain ⟨next, mark, width, fault⟩ := l
  obtain rfl : mark = none := hm
  obtain rfl : fault = none := hf
  obtain ⟨w, rfl⟩ := Nat.exists_eq_succ_of_ne_zero (Nat.ne_of_gt hpos)
  exact ⟨w, Nat.le_of_succ_le_succ hle, rfl⟩

/-! ## 2. Text behind a text -/

/-- A run that ends within a text is not longer with more text behind it. -/
theorem Text.run_of_append_le {p : Char → Bool} {t u : Text} (h : Text.run p (t ++ u) ≤ t.length) :
    Text.run p t = Text.run p (t ++ u) := by
  induction t with
  | nil => exact (Nat.le_zero.mp h).symm
  | cons c cs ih =>
    rw [List.cons_append, Text.run] at h ⊢
    rw [Text.run]
    split
    · next hc =>
      rw [if_pos hc] at h
      rw [ih (Nat.le_of_succ_le_succ h)]
    · rfl

/-- What a text begins with it begins with when there is more text behind it. -/
theorem Text.beginsWith_append {lead t : Text} (h : Text.beginsWith lead t = true) (u : Text) :
    Text.beginsWith lead (t ++ u) = true := by
  obtain ⟨rest, rfl⟩ := Text.exists_of_beginsWith h
  rw [List.append_assoc]
  unfold Text.beginsWith
  have hafter : ∀ l s : Text, Text.after? l (l ++ s) = some s := by
    intro l s
    induction l with
    | nil => rfl
    | cons c l ih => rw [List.cons_append, Text.after?, if_pos rfl, ih]
  rw [hafter]
  rfl

/-- Text behind a text that is long enough does not change what it begins with. -/
theorem Text.beginsWith_of_append {lead t u : Text} (h : Text.beginsWith lead (t ++ u) = true)
    (hlen : lead.length ≤ t.length) : Text.beginsWith lead t = true := by
  induction lead generalizing t with
  | nil => rfl
  | cons l lead ih =>
    cases t with
    | nil => cases hlen
    | cons c t =>
      unfold Text.beginsWith at h ih ⊢
      rw [List.cons_append, Text.after?] at h
      rw [Text.after?]
      split at h
      · next hc =>
        rw [if_pos hc]
        exact ih h (Nat.le_of_succ_le_succ hlen)
      · cases h

/-- A search for a mark that ends within a text finds it there without the text behind it. -/
theorem Text.seek_of_append {mark t u : Text} {n : Nat}
    (h : Text.seek (Text.beginsWith mark) (t ++ u) = some n) (hlen : n + mark.length ≤ t.length)
    (hmark : mark ≠ []) : Text.seek (Text.beginsWith mark) t = some n := by
  induction t generalizing n with
  | nil =>
    have := List.length_pos_iff.mpr hmark
    simp only [List.length_nil] at hlen
    omega
  | cons c cs ih =>
    rw [List.cons_append, Text.seek] at h
    rw [Text.seek]
    split at h
    · next hc =>
      cases h
      rw [if_pos]
      refine Text.beginsWith_of_append (u := u) hc ?_
      omega
    · next hc =>
      obtain ⟨m, hm, rfl⟩ := Option.map_eq_some_iff.mp h
      rw [if_neg fun hb => hc (Text.beginsWith_append hb u)]
      simp only [List.length_cons] at hlen
      rw [ih hm (by omega), Option.map_some]

/-- Content that lies within a text is the same without the text behind it, where no close tag is
looked for. -/
theorem Context.lexeme_of_append {here next : Context} {c : Char} {t u : Text} {w : Nat}
    (h : here.lexeme c (t ++ u) = Lexeme.content next (w + 1)) (hw : w ≤ t.length)
    (hhere : here = .pcdata ∨ here = .declaration ∨ here = .cdata) :
    here.lexeme c t = Lexeme.content next (w + 1) := by
  have hdelimited {stop : Text} (hstop : stop ≠ [])
      (h : Lexeme.inDelimited here stop (c :: (t ++ u)) = Lexeme.content next (w + 1)) :
      Lexeme.inDelimited here stop (c :: t) = Lexeme.content next (w + 1) := by
    unfold Lexeme.inDelimited at h ⊢
    split at h
    · next hn =>
      have hlen : (c :: (t ++ u)).length = w + 1 := congrArg Lexeme.width h
      rw [List.length_cons, List.length_append] at hlen
      obtain rfl : u = [] := List.length_eq_zero_iff.mp (by omega)
      rw [List.append_nil] at h hn
      rw [hn]
      exact h
    · next n hn =>
      have hlen : n + stop.length = w + 1 := congrArg Lexeme.width h
      rw [Text.seek_of_append (t := c :: t) hn (by rw [List.length_cons]; omega) hstop]
      exact h
  rcases hhere with rfl | rfl | rfl
  · rw [lexeme, Lexeme.inPcdata] at h ⊢
    split at h <;> rename_i hc
    · rw [if_pos hc]
      unfold Lexeme.atAngle at h ⊢
      split at h <;> rename_i h1
      · cases h
      · rw [if_neg fun hb => h1 (Text.beginsWith_append hb u)]
        split at h <;> rename_i h2
        · have hlen : 9 = w + 1 := congrArg Lexeme.width h
          rw [if_pos (Text.beginsWith_of_append h2 (by simp; omega))]
          exact h
        · rw [if_neg fun hb => h2 (Text.beginsWith_append hb u)]
          split at h <;> rename_i h3
          · have hlen : 2 = w + 1 := congrArg Lexeme.width h
            rw [if_pos]
            · exact h
            · rcases Bool.or_eq_true_iff.mp h3 with h3 | h3
              · exact Bool.or_eq_true_iff.mpr
                  (.inl (Text.beginsWith_of_append h3 (by simp; omega)))
              · exact Bool.or_eq_true_iff.mpr
                  (.inr (Text.beginsWith_of_append h3 (by simp; omega)))
          · split at h
            · cases h
            · cases h
            · split at h <;> cases h
            · split at h <;> cases h
    · rw [if_neg hc]
      have hrun : Text.run (· != '<') (t ++ u) + 1 = w + 1 := congrArg Lexeme.width h
      rw [Text.run_of_append_le (u := u) (by omega)]
      exact h
  · exact hdelimited (by simp) h
  · exact hdelimited (by simp) h

/-! ## 3. Stretches -/

/-- Text that begins with `held` is read as content up to the end of `held`, where `rest` is
left. -/
inductive Context.Takes : Context → Text → Text → Context → Prop
  | done (here : Context) (rest : Text) : Takes here [] rest here
  | step {here next final : Context} {c : Char} {cs held rest : Text}
      (hl : here.lexeme c (cs ++ held ++ rest) = Lexeme.content next (cs.length + 1))
      (ht : Takes next held rest final) : Takes here (c :: cs ++ held) rest final

namespace Context

section Takes

variable {here next final : Context} {held rest : Text}

/-- One more lexeme of content. -/
theorem Takes.snoc {c : Char} {cs : Text} (h : Takes here held (c :: cs ++ rest) final)
    (hl : final.lexeme c (cs ++ rest) = Lexeme.content next (cs.length + 1)) :
    Takes here (held ++ c :: cs) rest next := by
  generalize hr : c :: cs ++ rest = all at h
  induction h with
  | done here rest' =>
    rw [List.nil_append, ← List.append_nil (c :: cs)]
    exact .step (by rw [List.append_nil]; exact hl) (.done next rest)
  | @step here _ _ d ds held rest' hd ht ih =>
    subst hr
    rw [List.append_assoc]
    exact .step (by simpa only [List.append_assoc, List.cons_append] using hd) (ih hl rfl)

/-- Where content leads: neither into an element whose body is text nor out of one, and never
between attributes. -/
theorem Move.next_of_content {c : Char} {w : Nat} (h : Move here c (Lexeme.content next w)) :
    (here.isContent = true → next.isContent = true)
      ∧ (∀ e, next = .rcdata e ↔ here = .rcdata e) ∧ next ≠ .beforeAttrName := by
  generalize hl : Lexeme.content next w = l at h
  have hnext : next = l.next := congrArg Lexeme.next hl
  have hmark : none = l.mark := congrArg Lexeme.mark hl
  cases h <;> cases hmark <;> subst hnext <;>
    exact ⟨fun h => (by first | rfl | cases h), by simp, by simp⟩

/-- A stretch of content begins and ends where no construct is open. -/
theorem Takes.isContent (h : Takes here held rest final) (hhere : here.isContent = true) :
    final.isContent = true := by
  induction h with
  | done => exact hhere
  | @step here next _ c cs held rest hl ht ih =>
    have hmove := Context.lexeme_move here c (cs ++ held ++ rest)
    rw [hl] at hmove
    exact ih (hmove.next_of_content.1 hhere)

/-- Content leads neither into an element whose body is text nor out of one. -/
theorem Takes.eq_rcdata_iff (h : Takes here held rest final) (e : Rcdata) :
    final = .rcdata e ↔ here = .rcdata e := by
  induction h with
  | done => rfl
  | @step here next _ c cs held rest hl ht ih =>
    have hmove := Context.lexeme_move here c (cs ++ held ++ rest)
    rw [hl] at hmove
    exact ih.trans (hmove.next_of_content.2.1 e)

/-- **A stretch of content is read alone as it was read in its text**, unless it ends in an element
whose body is text. -/
theorem Takes.alone (h : Takes here held rest final) (hhere : here.isContent = true)
    (hfinal : ∀ e, final ≠ .rcdata e) : Takes here held [] final := by
  induction h with
  | done here rest => exact .done here []
  | @step here next _ c cs held rest hl ht ih =>
    have hmove := Context.lexeme_move here c (cs ++ held ++ rest)
    rw [hl] at hmove
    refine .step ?_ (ih (hmove.next_of_content.1 hhere) hfinal)
    have hhere' : here = .pcdata ∨ here = .declaration ∨ here = .cdata := by
      cases here with
      | rcdata e => exact absurd (((Takes.step hl ht).eq_rcdata_iff e).mpr rfl) (hfinal e)
      | pcdata => exact .inl rfl
      | declaration => exact .inr (.inl rfl)
      | cdata => exact .inr (.inr rfl)
      | _ => cases hhere
    rw [List.append_nil]
    exact Context.lexeme_of_append hl (by simp) hhere'

/-- Text that an element admits is read alone as its body. -/
theorem takes_of_admits {e : Rcdata} (h : (rcdata e).admits held = true) :
    Takes (rcdata e) held [] (rcdata e) := by
  cases held with
  | nil => exact .done _ _
  | cons c cs =>
    rw [← List.append_nil (c :: cs)]
    refine .step ?_ (.done _ _)
    rw [List.append_nil]
    exact Context.lexeme_of_admits h (Context.breaks_nil _)

end Takes

end Context

end TemplateMarkup
