/-
# Durable nodes

What the pass makes of a template without a report, it leaves as it is, with two exceptions that
`isDurable` rules out.  Raw text before a close tag may by itself be taken for one, if it ends with
the name of its element; and a content block may end in an open tag that was never finished, whose
element is entered only when the tag is met again.

`lastingOut?` is what `lastingFrom?` says of finished nodes, which have the latest first.  While text
is read the last of them is not settled yet: `Stretch` says that it is content up to what is left to
read, and `Stretch.push` settles it when the next node is finished.
-/
import TemplateMarkup.Proofs.Html.Lasting
import TemplateMarkup.Proofs.Html.Stretches

namespace TemplateMarkup

/-! ## 1. Durable nodes -/

/-- Text may stand right before the close tag of an element if alone it does not end the body of
that element. -/
def Node.mayMeet : Node → List Node → Bool
  | .raw _ _ t, .closeTag _ _ name :: _ => name.rcdata?.all fun e => (Context.rcdata e).admits t
  | _, _ => true

/-- The last of the nodes opens an element whose body is text. -/
def endsInBody (nodes : List Node) : Bool :=
  nodes.getLast?.any fun n => (Assembly.contextAfter? .pcdata n).isSome

mutual

/-- What the pass visits in the node is durable: the branches of control flow and the content
blocks of calls and bindings. -/
def Node.isDurable : Node → Bool
  | .call _ _ _ params => durableParams params
  | .binding _ _ _ value => value.isDurable
  | .flow f => f.isDurable
  | _ => true

/-- Every node is durable, and no text meets a close tag that it would be. -/
def isDurable : List Node → Bool
  | [] => true
  | n :: nodes => n.isDurable && n.mayMeet nodes && isDurable nodes

/-- The content block is durable, and does not end in the body of an element. -/
def Value.isDurable : Value → Bool
  | .expr _ => true
  | .content _ nodes => TemplateMarkup.isDurable nodes && !endsInBody nodes

/-- Every content block among the parameters is durable. -/
def durableParams : List Param → Bool
  | [] => true
  | ⟨_, _, _, value⟩ :: params => value.isDurable && durableParams params

/-- Every branch is durable. -/
def Flow.isDurable : Flow → Bool
  | ⟨_, _, _, branches⟩ => durableBranches branches

/-- Every branch is durable. -/
def durableBranches : List Branch → Bool
  | [] => true
  | ⟨_, _, nodes⟩ :: branches => TemplateMarkup.isDurable nodes && durableBranches branches

end

/-- A list with one more node at its end is durable if the list and the node are, and they may
meet. -/
theorem isDurable_concat (nodes : List Node) (n : Node) : isDurable (nodes ++ [n])
    = (isDurable nodes && n.isDurable && nodes.getLast?.all fun m => m.mayMeet [n]) := by
  induction nodes with
  | nil => simp [isDurable, Node.mayMeet]
  | cons m nodes ih =>
    rw [List.cons_append, isDurable, isDurable, ih]
    cases nodes with
    | nil =>
      have hnil : m.mayMeet [] = true := by cases m <;> rfl
      simp [isDurable, hnil]
      cases m.isDurable <;> cases n.isDurable <;> simp
    | cons k nodes =>
      have hmeet : m.mayMeet (k :: nodes ++ [n]) = m.mayMeet (k :: nodes) := by
        cases m <;> cases k <;> rfl
      rw [hmeet, List.getLast?_cons_cons]
      cases m.isDurable <;> cases m.mayMeet (k :: nodes) <;> simp

/-- The finished nodes, the latest first, are durable. -/
def durableOut (out : List Node) : Bool := isDurable out.reverse

@[simp] theorem durableOut_nil : durableOut [] = true := by
  rw [durableOut, List.reverse_nil, isDurable]

theorem durableOut_cons (n : Node) (out : List Node) : durableOut (n :: out)
    = (durableOut out && n.isDurable && out.head?.all fun m => m.mayMeet [n]) := by
  rw [durableOut, List.reverse_cons, isDurable_concat, List.getLast?_reverse, durableOut]

theorem durableOut_of_cons {n : Node} {out : List Node} (h : durableOut (n :: out) = true) :
    durableOut out = true ∧ n.isDurable = true := by
  rw [durableOut_cons, Bool.and_eq_true, Bool.and_eq_true] at h
  exact h.1

/-! ## 2. Finished nodes that last -/

/-- The context after finished nodes, the latest first, if they are lasting and no two texts are
neighbours. -/
def lastingOut? (room : Nat) (entry : Context) : List Node → Option Context
  | [] => some entry
  | n :: out =>
    if n.rawText?.isNone || out.head?.all fun m => m.rawText?.isNone then
      (lastingOut? room entry out).bind fun here => n.lastingFrom? room here
    else none

theorem lastingOut?_cons {room : Nat} {entry here next : Context} {n : Node} {out : List Node}
    (h : lastingOut? room entry out = some here) (hn : n.rawText? = none)
    (hnext : n.lastingFrom? room here = some next) :
    lastingOut? room entry (n :: out) = some next := by
  rw [lastingOut?, if_pos (by rw [hn]; rfl), h, Option.bind_some, hnext]

/-- Lasting nodes may be followed by lasting nodes. -/
theorem lastingFrom?_reverse_append {room : Nat} {entry : Context} : ∀ {out nodes : List Node}
    {here final : Context}, lastingOut? room entry out = some here →
    (∀ m ∈ out.head?, ∀ n ∈ nodes.head?, m.rawText? = none ∨ n.rawText? = none) →
    lastingFrom? room here nodes = some final →
    lastingFrom? room entry (out.reverse ++ nodes) = some final
  | [], nodes, here, final, h, _, hnodes => by
    rw [lastingOut?, Option.some.injEq] at h
    subst h
    exact hnodes
  | m :: out, nodes, here, final, h, hmeet, hnodes => by
    rw [lastingOut?] at h
    split at h
    · next hapart =>
      obtain ⟨before, hbefore, hm⟩ := Option.bind_eq_some_iff.mp h
      rw [List.reverse_cons, List.append_assoc, List.singleton_append]
      refine lastingFrom?_reverse_append hbefore ?_ ?_
      · rintro k hk n hn
        obtain rfl : m = n := Option.some.inj hn
        rcases Bool.or_eq_true_iff.mp hapart with hapart | hapart
        · exact .inr (Option.isNone_iff_eq_none.mp hapart)
        · rw [hk] at hapart
          exact .inl (Option.isNone_iff_eq_none.mp hapart)
      · rw [lastingFrom?]
        split
        · next t honly =>
          -- text at the end is content at the end as well
          cases m with
          | raw id loc u =>
            cases nodes with
            | cons k nodes => cases honly
            | nil =>
              obtain rfl : u = t := Option.some.inj honly
              rw [Node.lastingFrom?] at hm
              split at hm
              · cases hm
              · next ht =>
                rw [lastingFrom?, Option.some.injEq] at hnodes
                subst hnodes
                rw [if_neg ht]
                exact Context.afterLastText?_of_afterText? hm
          | _ => cases nodes <;> cases honly
        · rw [if_pos, hm, Option.bind_some, hnodes]
          cases nodes with
          | nil => simp
          | cons k nodes =>
            rcases hmeet m rfl k rfl with h | h <;> simp [h]
    · cases h

/-! ## 3. Stretches at the end -/

/-- Text at the end of the finished nodes. -/
def EndsWith (out : List Node) (u : Text) (base : List Node) : Prop :=
  u = [] ∧ out = base ∨ u ≠ [] ∧ ∃ id location, out = .raw id location u :: base

/-- The finished nodes are lasting up to text at their end that is read, with what is held, as a
stretch of content up to `rest`. -/
def Stretch (room : Nat) (entry : Context) (out : List Node) (here : Context)
    (held rest : Text) : Prop :=
  ∃ base u start, EndsWith out u base ∧ (∀ m ∈ base.head?, m.rawText? = none)
    ∧ lastingOut? room entry base = some start ∧ start.isContent = true
    ∧ start.Takes (u ++ held) rest here

namespace Context

section

variable {here next final : Context} {held rest : Text}

theorem Takes.eq_of_nil (h : Takes here [] rest final) : final = here := by
  generalize hu : ([] : Text) = held at h
  cases h with
  | done => rfl
  | step => cases hu

/-- What follows a stretch of content is read from its end. -/
theorem Takes.afterText? (h : Takes here held rest final) :
    here.afterText? (held ++ rest) = final.afterText? rest := by
  induction h with
  | done => rfl
  | @step here next final c cs held rest hl ht ih =>
    have hdrop : (c :: (cs ++ held ++ rest)).drop (cs.length + 1) = held ++ rest := by simp
    rw [List.cons_append, List.cons_append, Context.afterText?]
    simp only [hl, Lexeme.content, Option.isNone_none, Bool.and_self, if_true, hdrop, ih]

theorem Takes.afterLastText? (h : Takes here held rest final) :
    here.afterLastText? (held ++ rest) = final.afterLastText? rest := by
  induction h with
  | done => rfl
  | @step here next final c cs held rest hl ht ih =>
    have hdrop : (c :: (cs ++ held ++ rest)).drop (cs.length + 1) = held ++ rest := by simp
    have hangle : ¬ (here = .pcdata ∧ (c :: (cs ++ held ++ rest) = ['<']
        ∨ c :: (cs ++ held ++ rest) = ['<', '/'])) := by
      rintro ⟨rfl, hcs | hcs⟩ <;>
      · obtain ⟨rfl, hcs'⟩ := List.cons.inj hcs
        rw [hcs'] at hl
        cases hl
    rw [List.cons_append, List.cons_append, Context.afterLastText?, if_neg hangle]
    simp only [hl, Lexeme.content, Option.isNone_none, Bool.and_self, if_true, hdrop, ih]

end

end Context

section Stretch

variable {room : Nat} {entry here next : Context} {out : List Node} {held rest : Text}

theorem Stretch.start (h : entry.isContent = true) (rest : Text) :
    Stretch room entry [] entry [] rest :=
  ⟨[], [], entry, .inl ⟨rfl, rfl⟩, by simp, rfl, h, .done entry rest⟩

/-- One more lexeme of content. -/
theorem Stretch.content {c : Char} {cs : Text} {w : Nat}
    (h : Stretch room entry out here held (c :: cs))
    (hl : here.lexeme c cs = Lexeme.content next (w + 1)) (hw : w ≤ cs.length) :
    Stretch room entry out next (held ++ (c :: cs).take (w + 1)) ((c :: cs).drop (w + 1)) := by
  obtain ⟨base, u, start, hends, hbase, hlast, hstart, htakes⟩ := h
  refine ⟨base, u, start, hends, hbase, hlast, hstart, ?_⟩
  rw [List.take_succ_cons, List.drop_succ_cons, ← List.append_assoc]
  have hsplit : c :: cs = c :: cs.take w ++ cs.drop w := by simp
  rw [hsplit] at htakes
  refine htakes.snoc ?_
  rw [List.take_append_drop, List.length_take, Nat.min_eq_left hw]
  exact hl

/-- Where text is not read for a close tag, or nothing is left to read, the finished nodes last. -/
theorem Stretch.lasting (h : Stretch room entry out here [] rest)
    (halone : rest = [] ∨ (∀ e, here ≠ .rcdata e) ∨ ∃ e, here = .rcdata e
      ∧ ∀ m ∈ out.head?, ∀ t, m.rawText? = some t → (Context.rcdata e).admits t = true) :
    lastingOut? room entry out = some here := by
  obtain ⟨base, u, start, hends, hbase, hlast, hstart, htakes⟩ := h
  rw [List.append_nil] at htakes
  rcases hends with ⟨rfl, rfl⟩ | ⟨hne, id, loc, rfl⟩
  · rw [hlast, htakes.eq_of_nil]
  · have halone : start.Takes u [] here := by
      rcases halone with rfl | halone | ⟨e, rfl, hadmits⟩
      · exact htakes
      · exact htakes.alone hstart halone
      · obtain rfl := (htakes.eq_rcdata_iff e).mp rfl
        exact Context.takes_of_admits (hadmits _ rfl u rfl)
    have htext := halone.afterText?
    rw [List.append_nil, Context.afterText?] at htext
    have hspaced : (base.head?.all fun m => m.rawText?.isNone) = true := by
      cases base with
      | nil => rfl
      | cons m base => simpa using hbase m rfl
    rw [lastingOut?, if_pos (by rw [hspaced, Bool.or_true]), hlast, Option.bind_some,
      Node.lastingFrom?, if_neg (by simpa using hne), htext]

/-- A node that is no text begins another stretch. -/
theorem Stretch.push {n : Node} (h : lastingOut? room entry out = some here)
    (hn : n.rawText? = none) (hnext : n.lastingFrom? room here = some next)
    (hcontent : next.isContent = true) (rest : Text) :
    Stretch room entry (n :: out) next [] rest :=
  ⟨n :: out, [], next, .inl ⟨rfl, rfl⟩, fun m hm => by
    obtain rfl : n = m := Option.some.inj hm
    exact hn, lastingOut?_cons h hn hnext, hcontent, .done next rest⟩

/-- Text that is added lengthens the stretch at the end. -/
theorem endsWith_addText {b : Assembly} {u : Text} {base : List Node}
    (hb : b.context.isContent = true) (hbase : ∀ m ∈ base.head?, m.rawText? = none) (h : EndsWith b.out u base) {t : Text}
    (ht : t ≠ []) (location : Span) : EndsWith (b.addText t location).out (u ++ t) base := by
  have hne : u ++ t ≠ [] := by simp [ht]
  unfold Assembly.addText
  rw [Assembly.content_of_isContent hb]
  rcases h with ⟨rfl, hout⟩ | ⟨-, id, loc, hout⟩
  · split
    · next id before t' nodes hb' =>
      rw [hout] at hb'
      cases hbase _ (by rw [hb']; rfl)
    · rw [Assembly.setContent_of_isContent (by exact hb), hout]
      exact .inr ⟨hne, _, _, rfl⟩
  · rw [hout]
    dsimp only
    rw [Assembly.setContent_of_isContent hb]
    exact .inr ⟨hne, _, _, rfl⟩

theorem Stretch.addText {b : Assembly} (h : Stretch room entry b.out here held rest)
    (hb : b.context.isContent = true) (hne : held ≠ []) (location : Span) :
    Stretch room entry (b.addText held location).out here [] rest := by
  obtain ⟨base, u, start, hends, hbase, hlast, hstart, htakes⟩ := h
  exact ⟨base, u ++ held, start, endsWith_addText hb hbase hends hne location, hbase, hlast, hstart,
    by rwa [List.append_nil]⟩

/-- Text makes no difference to whether finished nodes are durable, as long as no close tag
follows. -/
theorem durableOut_addText {b : Assembly} (hb : b.context.isContent = true) (t : Text)
    (location : Span) : durableOut (b.addText t location).out = durableOut b.out := by
  have hraw (id : NodeId) (loc : Span) (t : Text) (out : List Node) :
      durableOut (.raw id loc t :: out) = durableOut out := by
    have hmeet (m : Node) : m.mayMeet [.raw id loc t] = true := by cases m <;> rfl
    rw [durableOut_cons, Node.isDurable]
    · cases out <;> simp [hmeet]
    all_goals simp
  unfold Assembly.addText
  rw [Assembly.content_of_isContent hb]
  split
  · next id before t' nodes hout =>
    rw [Assembly.setContent_of_isContent hb, hout, hraw, hraw]
  · rw [Assembly.setContent_of_isContent (by exact hb), hraw]

/-- A close tag holds the text before it to what its element admits. -/
theorem admits_of_durableOut {id : NodeId} {location : Span} {name : Node} {e : Rcdata}
    (h : durableOut (.closeTag id location name :: out) = true) (he : name.rcdata? = some e) :
    ∀ m ∈ out.head?, ∀ t, m.rawText? = some t → (Context.rcdata e).admits t = true := by
  rw [durableOut_cons, Bool.and_eq_true] at h
  intro m hm t ht
  obtain ⟨id', loc', rfl⟩ := Node.eq_raw_of_rawText? ht
  have hmeet := h.2
  rw [hm] at hmeet
  simpa [Node.mayMeet, he] using hmeet

/-- At the end a `<` or `</` that begins no tag is lasting with the text before it. -/
theorem Stretch.lastingFrom?_angle {b : Assembly} {t : Text}
    (h : Stretch room entry b.out .pcdata [] t) (hb : b.context.isContent = true) (ht : t = ['<'] ∨ t = ['<', '/']) (location : Span) :
    lastingFrom? room entry (b.addText t location).out.reverse = some .pcdata := by
  obtain ⟨base, u, start, hends, hbase, hlast, hstart, htakes⟩ := h
  rw [List.append_nil] at htakes
  have hne : t ≠ [] := by rcases ht with rfl | rfl <;> simp
  have hangle : start.afterLastText? (u ++ t) = some .pcdata := by
    rw [htakes.afterLastText?]
    rcases ht with rfl | rfl <;> rw [Context.afterLastText?, if_pos (by simp)]
  rcases endsWith_addText hb hbase hends hne location with ⟨hnil, -⟩ | ⟨hne, id, loc, hout⟩
  · simp [hne] at hnil
  · rw [hout, List.reverse_cons]
    refine lastingFrom?_reverse_append hlast (fun m hm _ _ => .inl (hbase m hm)) ?_
    rw [lastingFrom?]
    simp only [onlyText?]
    rw [if_neg (by simpa using hne), hangle]

end Stretch

/-! ## 4. Close tags of elements whose body is text -/

theorem Text.sameLetters_of_map_toLower {s t : Text} (h : s.map Char.toLower = t.map Char.toLower) :
    Text.sameLetters s t = true := by
  induction s generalizing t with
  | nil =>
    cases t with
    | nil => rfl
    | cons c cs => cases h
  | cons l s ih =>
    cases t with
    | nil => cases h
    | cons c cs =>
      obtain ⟨hc, hcs⟩ := List.cons.inj h
      unfold sameLetters at ih ⊢
      rw [afterAnyCase?, if_pos (show sameLetter l c = true from beq_iff_eq.mpr hc)]
      exact ih hcs

/-- No two elements have the same letters. -/
theorem Rcdata.ofName?_of_map_toLower {e : Rcdata} {w : Text}
    (h : w.map Char.toLower = e.name.toList.map Char.toLower) : Rcdata.ofName? w = some e := by
  have hsame (e' : Rcdata) : Text.sameLetters e'.name.toList w = (e' == e) := by
    by_cases he : e' = e
    · subst he
      rw [beq_self_eq_true]
      exact Text.sameLetters_of_map_toLower h.symm
    · rw [beq_eq_false_iff_ne.mpr he]
      refine Bool.eq_false_iff.mpr fun hne => ?_
      have hsome : Text.afterAnyCase? e'.name.toList w = some [] := by
        simpa [Text.sameLetters] using hne
      obtain ⟨w', hw, hw'⟩ := Text.map_toLower_of_afterAnyCase? hsome
      rw [List.append_nil] at hw
      rw [hw, hw'] at h
      revert he h
      cases e' <;> cases e <;> decide
  unfold ofName?
  rw [funext hsame]
  cases e <;> decide

theorem isAlpha_of_toLower {c l : Char} (h : c.toLower = l) (hl : l.isLower = true) :
    c.isAlpha = true := by
  show (c.isUpper || c.isLower) = true
  by_cases hc : c.isUpper = true
  · rw [hc, Bool.true_or]
  · have hsame : c.toLower = c := by
      unfold Char.toLower
      rw [dif_neg]
      exact fun hupper => hc (decide_eq_true hupper)
    rw [← hsame, h, hl, Bool.or_true]

/-- A letter in any case is in names. -/
theorem inTagName_of_toLower {c l : Char} (h : c.toLower = l) (hl : l.isLower = true) :
    inTagName c = true := by
  simp [inTagName, Char.isAlphanum, isAlpha_of_toLower h hl]

/-- **The name of a close tag that ends an element is the element's**, and what follows ends the
name. -/
theorem Lexeme.exists_of_closesElement {e : Rcdata} {t : Text}
    (h : closesElement e ('<' :: '/' :: t) = true) :
    ∃ w rest, t = w ++ rest ∧ w ≠ [] ∧ w.all inTagName = true ∧ Rcdata.ofName? w = some e
      ∧ ∀ c cs, rest = c :: cs → endsName c = true := by
  unfold closesElement at h
  simp only [Text.after?, if_true, Option.bind_some] at h
  cases hname : Text.afterAnyCase? e.name.toList t with
  | none =>
    rw [hname] at h
    cases h
  | some rest =>
    rw [hname] at h
    obtain ⟨w, rfl, hw⟩ := Text.map_toLower_of_afterAnyCase? hname
    refine ⟨w, rest, rfl, ?_, ?_, Rcdata.ofName?_of_map_toLower hw, ?_⟩
    · rintro rfl
      revert hw
      cases e <;> decide
    · have hlower : (e.name.toList.map Char.toLower).all Char.isLower = true := by
        cases e <;> decide
      refine List.all_eq_true.mpr fun c hc => ?_
      refine inTagName_of_toLower rfl (List.all_eq_true.mp hlower _ ?_)
      rw [← hw]
      exact List.mem_map_of_mem hc
    · rintro c cs rfl
      exact h

end TemplateMarkup
