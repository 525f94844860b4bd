/-
# Canonical html

A list of nodes is canonical if it can be read off its own source text: no text holds what would end
or begin something there, names are legal, and no two nodes run into one another.  `canonicalFrom`
follows the context along a list, so the body of an element whose body is text is held to what such
a body may hold.

Two neighbours have to be kept apart.  Raw text beside raw text would be one text.  After a value
without quotes, control flow and the `/` of `/>` would be read as more of the value.

The second part says how canonical text is read: as one lexeme of content, up to something that
breaks it (`lexeme_of_admits`).
-/
import TemplateMarkup.Html.Placing
import TemplateMarkup.Proofs.Html.Moves

namespace TemplateMarkup

/-! ## 1. Names and text -/

/-- A tag name that is written out. -/
def isTagName : Text → Bool
  | [] => false
  | c :: cs => startsTagName c && cs.all inTagName

/-- The rest of an attribute name; no separator stands after another or at the end. -/
def continuesAttrName (afterSeparator : Bool) : Text → Bool
  | [] => !afterSeparator
  | c :: cs =>
    if inAttrName c then continuesAttrName false cs
    else separatesAttrName c && !afterSeparator && continuesAttrName true cs

/-- An attribute name that is written out. -/
def isAttrName : Text → Bool
  | [] => false
  | c :: cs => startsAttrName c && continuesAttrName false cs

/-- A name: written out and legal, or a print or a call without parameters. -/
def Node.isNameOf (legal : Text → Bool) : Node → Bool
  | .raw _ _ t => legal t
  | .print .. => true
  | .call _ _ _ params => params.isEmpty
  | _ => false

/-- The text is content in the context and nothing else. -/
def Context.admits (t : Text) : Context → Bool
  | pcdata => t.all (· != '<')
  | rcdata e => (Text.seek (Lexeme.closesElement e) t).isNone
  | comment => (Text.seek (Text.beginsWith "-->".toList) t).isNone
  | attrValue quotes =>
    match quotes.char? with
    | none => t.all Lexeme.inBareValue
    | some quote => t.all (· != quote)
  | _ => false

/-- Contexts that a canonical list may hold raw text, prints and calls in. -/
def Context.isText : Context → Bool
  | pcdata | rcdata _ | comment | attrValue _ => true
  | _ => false

/-- Contexts between whole nodes: those, and between the attributes of a tag. -/
def Context.isBetween (here : Context) : Bool := here.isText || here == .beforeAttrName

/-- The value without quotes begins with none. -/
def startsBare : List Node → Bool
  | .raw _ _ (c :: _) :: _ => c != '"' && c != '\''
  | .print .. :: _ => true
  | .call .. :: _ => true
  | _ => false

/-- An attribute with a value without quotes. -/
def Node.endsBare : Node → Bool
  | .attr _ _ _ (some (.attrValue _ _ .bare _)) => true
  | _ => false

/-- The last of the nodes is an attribute with a value without quotes. -/
def lastEndsBare (nodes : List Node) : Bool := nodes.getLast?.any Node.endsBare

/-- The node may stand before the nodes. -/
def Node.mayPrecede (n : Node) (nodes : List Node) : Bool :=
  match nodes with
  | .raw .. :: _ => n.rawText?.isNone
  | .flow _ :: _ => !n.endsBare
  | _ => true

/-! ## 2. Lists -/

mutual

/-- The node is canonical in a context. -/
def Node.canonicalIn (here : Context) : Node → Bool
  | .raw _ _ t => !t.isEmpty && here.admits t
  | .print .. => here.isText
  | .call _ _ _ params => here.isText && params.isEmpty
  | .binding .. => false
  | .flow f => here.isBetween && f.canonicalIn here
  | .openTag _ _ name children selfClosing =>
    here == .pcdata && name.isNameOf isTagName
      && canonicalFrom .beforeAttrName .beforeAttrName children
      && !(selfClosing && lastEndsBare children)
  | .closeTag _ _ name =>
    name.isNameOf isTagName
      && match here with
        | .pcdata => name.rcdata?.isNone
        | .rcdata e => name.rcdata? == some e
        | _ => false
  | .attr _ _ name none => here == .beforeAttrName && name.isNameOf isAttrName
  | .attr _ _ name (some value) =>
    here == .beforeAttrName && name.isNameOf isAttrName && value.canonicalValue
  | .attrValue .. => false
  | .comment _ _ children => here == .pcdata && canonicalFrom .comment .comment children

/-- The node is a canonical value. -/
def Node.canonicalValue : Node → Bool
  | .attrValue _ _ quotes children =>
    (quotes != .bare || startsBare children)
      && canonicalFrom (.attrValue quotes) (.attrValue quotes) children
  | _ => false

/-- The nodes are canonical from context `here` on and lead to context `final`. -/
def canonicalFrom (final here : Context) : List Node → Bool
  | [] => here == final
  | n :: nodes =>
    n.canonicalIn here && n.mayPrecede nodes
      && canonicalFrom final ((Assembly.contextAfter? here n).getD here) nodes

/-- The branches are canonical in a context. -/
def Flow.canonicalIn (here : Context) : Flow → Bool
  | ⟨_, _, _, branches⟩ => canonicalBranches here branches

/-- The branches are canonical in a context. -/
def canonicalBranches (here : Context) : List Branch → Bool
  | [] => true
  | b :: branches => b.canonicalIn here && canonicalBranches here branches

/-- The branch is canonical in a context. -/
def Branch.canonicalIn (here : Context) : Branch → Bool
  | ⟨_, _, nodes⟩ => canonicalFrom here here nodes

end

/-- Canonical content of html. -/
def isCanonical (nodes : List Node) : Bool := canonicalFrom .pcdata .pcdata nodes

mutual

/-- How deep control flow is nested in the node. -/
def Node.flowDepth : Node → Nat
  | .flow f => f.flowDepth + 1
  | .openTag _ _ _ children _ => flowDepth children
  | .attr _ _ _ (some value) => value.flowDepth
  | .attrValue _ _ _ children => flowDepth children
  | .comment _ _ children => flowDepth children
  | _ => 0

/-- How deep control flow is nested in the nodes. -/
def flowDepth : List Node → Nat
  | [] => 0
  | n :: nodes => max n.flowDepth (flowDepth nodes)

/-- How deep control flow is nested in the branches. -/
def Flow.flowDepth : Flow → Nat
  | ⟨_, _, _, branches⟩ => branchesFlowDepth branches

/-- How deep control flow is nested in the branches. -/
def branchesFlowDepth : List Branch → Nat
  | [] => 0
  | b :: branches => max b.flowDepth (branchesFlowDepth branches)

/-- How deep control flow is nested in the branch. -/
def Branch.flowDepth : Branch → Nat
  | ⟨_, _, nodes⟩ => TemplateMarkup.flowDepth nodes

end

/-! ## 3. How canonical text is read -/

/-- The text is empty, or it begins with a mark. -/
def Context.Breaks (here : Context) (t : Text) : Prop :=
  ∀ c cs, t = c :: cs → ∃ mark next width, here.lexeme c cs = Lexeme.marking mark next width

theorem Context.breaks_nil (here : Context) : here.Breaks [] := fun _ _ h => by cases h

/-- Characters that end names are in none. -/
theorem not_inTagName_of_endsName {c : Char} (h : endsName c = true) : inTagName c = false := by
  simp only [endsName, isAsciiBlank, Bool.or_eq_true, beq_iff_eq] at h
  rcases h with (((((rfl | rfl) | rfl) | rfl) | rfl) | rfl) | rfl <;> decide

theorem Text.run_append {p : Char → Bool} {u : Text} (hu : ∀ c cs, u = c :: cs → p c = false) :
    ∀ {t : Text}, t.all p = true → Text.run p (t ++ u) = t.length
  | [], _ => by
    cases u with
    | nil => rfl
    | cons c cs =>
      rw [List.nil_append, Text.run, if_neg (by rw [hu c cs rfl]; simp)]
      rfl
  | c :: t, h => by
    rw [List.all_cons, Bool.and_eq_true] at h
    rw [List.cons_append, Text.run, if_pos h.1, Text.run_append hu h.2, List.length_cons]

/-- A search that finds nothing in a text goes on after it. -/
theorem Text.seek_append {here : Text → Bool} {u : Text}
    (hu : ∀ s, s ≠ [] → here s = false → here (s ++ u) = false) :
    ∀ {t : Text}, Text.seek here t = none → Text.seek here (t ++ u)
      = (Text.seek here u).map (· + t.length)
  | [], _ => by
    rw [List.nil_append, List.length_nil]
    cases Text.seek here u <;> rfl
  | c :: t, h => by
    rw [Text.seek] at h
    cases hc : here (c :: t) with
    | true => simp [hc] at h
    | false =>
      simp only [hc, Bool.false_eq_true, if_false, Option.map_eq_none_iff] at h
      have hnext := hu (c :: t) (by simp) hc
      rw [List.cons_append] at hnext ⊢
      rw [Text.seek, hnext, if_neg (by simp), Text.seek_append hu h, Option.map_map]
      rfl

/-- No letter of an element's name is a `<`. -/
theorem Rcdata.sameLetter_angle (e : Rcdata) :
    ∀ l ∈ e.name.toList, Text.sameLetter l '<' = false := by
  have h : (e.name.toList.all fun l => !Text.sameLetter l '<') = true := by cases e <;> rfl
  intro l hl
  simpa using List.all_eq_true.mp h l hl

theorem Text.afterAnyCase?_append {lead t rest : Text} (h : afterAnyCase? lead t = some rest)
    (u : Text) : afterAnyCase? lead (t ++ u) = some (rest ++ u) := by
  induction lead generalizing t with
  | nil =>
    rw [afterAnyCase?, Option.some.injEq] at h
    rw [afterAnyCase?, h]
  | cons l lead ih =>
    cases t with
    | nil => cases h
    | cons c t =>
      rw [afterAnyCase?] at h
      split at h
      · next hc =>
        rw [List.cons_append, afterAnyCase?, if_pos hc]
        exact ih h
      · cases h

theorem Text.map_toLower_of_afterAnyCase? {lead t rest : Text}
    (h : Text.afterAnyCase? lead t = some rest) :
    ∃ w, t = w ++ rest ∧ w.map Char.toLower = lead.map Char.toLower := by
  induction lead generalizing t with
  | nil =>
    rw [afterAnyCase?, Option.some.injEq] at h
    exact ⟨[], h, rfl⟩
  | cons l lead ih =>
    cases t with
    | nil => cases h
    | cons c cs =>
      rw [afterAnyCase?] at h
      split at h
      · next hc =>
        obtain ⟨w, rfl, hw⟩ := ih h
        refine ⟨c :: w, rfl, ?_⟩
        rw [List.map_cons, List.map_cons, hw, show l.toLower = c.toLower from beq_iff_eq.mp hc]
      · cases h

theorem Text.afterAnyCase?_append_angle {u : Text} : ∀ {lead s : Text},
    (∀ l ∈ lead, Text.sameLetter l '<' = false) →
    Text.afterAnyCase? lead (s ++ '<' :: u) = (Text.afterAnyCase? lead s).map (· ++ '<' :: u)
  | [], s, _ => by rw [afterAnyCase?, afterAnyCase?, Option.map_some]
  | l :: lead, [], h => by
    rw [List.nil_append, afterAnyCase?, afterAnyCase?, h l List.mem_cons_self,
      if_neg (by simp), Option.map_none]
  | l :: lead, c :: s, h => by
    rw [List.cons_append, afterAnyCase?, afterAnyCase?]
    split
    · exact Text.afterAnyCase?_append_angle fun m hm => h m (List.mem_cons_of_mem _ hm)
    · rfl

/-- A close tag begins with `<`. -/
theorem Lexeme.eq_angle_of_closesElement {e : Rcdata} {c : Char} {cs : Text}
    (h : closesElement e (c :: cs) = true) : c = '<' := by
  unfold closesElement at h
  rw [Text.after?] at h
  by_cases hc : '<' = c
  · exact hc.symm
  · rw [if_neg hc] at h
    cases h

/-- Text before a `<` closes no element that it does not close by itself. -/
theorem Lexeme.closesElement_append_angle {e : Rcdata} {s u : Text} (hs : s ≠ [])
    (h : closesElement e s = false) : closesElement e (s ++ '<' :: u) = false := by
  unfold closesElement at *
  match s with
  | [] => exact absurd rfl hs
  | [c] =>
    have : Text.after? ['<', '/'] ([c] ++ '<' :: u) = none := by
      simp [Text.after?]
    rw [this]
    rfl
  | c :: d :: s =>
    by_cases hcd : c = '<' ∧ d = '/'
    · obtain ⟨rfl, rfl⟩ := hcd
      simp only [Text.after?, List.cons_append, if_true, Option.bind_some] at h ⊢
      rw [Text.afterAnyCase?_append_angle e.sameLetter_angle]
      cases hn : Text.afterAnyCase? e.name.toList s with
      | none => rfl
      | some r =>
        cases r with
        | nil => simp [hn] at h
        | cons x xs => simpa [hn] using h
    · have : Text.after? ['<', '/'] (c :: d :: s ++ '<' :: u) = none := by
        simp only [Text.after?, List.cons_append]
        split
        · next hc =>
          split
          · next hd => exact absurd ⟨hc.symm, hd.symm⟩ hcd
          · rfl
        · rfl
      rw [this]
      rfl

/-- Text before a `-->` holds no other that it does not hold by itself. -/
theorem Text.beginsWith_append_stop {s u : Text} (hs : s ≠ [])
    (h : Text.beginsWith ['-', '-', '>'] s = false) :
    Text.beginsWith ['-', '-', '>'] (s ++ '-' :: '-' :: u) = false := by
  unfold Text.beginsWith at *
  match s with
  | [] => exact absurd rfl hs
  | [c] => simp [Text.after?]
  | [c, d] => simp [Text.after?]
  | c :: d :: x :: s =>
    simp only [Text.after?, List.cons_append] at h ⊢
    split
    · next hc =>
      split
      · next hd =>
        split
        · next hx =>
          rw [if_pos hc, if_pos hd, if_pos hx] at h
          cases h
        · rfl
      · rfl
    · rfl

theorem Text.exists_of_beginsWith {lead t : Text} (h : Text.beginsWith lead t = true) :
    ∃ rest, t = lead ++ rest := by
  obtain ⟨rest, h⟩ := Option.isSome_iff_exists.mp h
  exact ⟨rest, Text.eq_append_of_after? h⟩

theorem Text.seek_cons_zero {here : Text → Bool} {c : Char} {cs : Text}
    (h : here (c :: cs) = true) : Text.seek here (c :: cs) = some 0 := by
  rw [Text.seek, if_pos h]

/-- **Canonical text is one lexeme of content**, up to what breaks it. -/
theorem Context.lexeme_of_admits {here : Context} {c : Char} {cs u : Text}
    (h : here.admits (c :: cs) = true) (hu : here.Breaks u) :
    here.lexeme c (cs ++ u) = Lexeme.content here (cs.length + 1) := by
  cases here with
  | pcdata =>
    rw [admits, List.all_cons, Bool.and_eq_true, bne_iff_ne] at h
    have hstop : ∀ d ds, u = d :: ds → (d != '<') = false := by
      rintro d ds rfl
      obtain ⟨mark, next, width, hm⟩ := hu d ds rfl
      rw [lexeme, Lexeme.inPcdata] at hm
      split at hm
      · next hd =>
        rw [hd]
        rfl
      · cases hm
    rw [lexeme, Lexeme.inPcdata, if_neg h.1, Text.run_append hstop h.2]
  | rcdata e =>
    rw [admits, Option.isNone_iff_eq_none] at h
    rw [lexeme, Lexeme.inRcdata, ← List.cons_append]
    cases u with
    | nil =>
      rw [List.append_nil, h]
      rfl
    | cons d ds =>
      obtain ⟨mark, next, width, hm⟩ := hu d ds rfl
      rw [lexeme, Lexeme.inRcdata] at hm
      split at hm
      · cases hm
      · next h0 =>
        have hclose := (Text.of_seek_eq_some h0).1
        rw [List.drop_zero] at hclose
        obtain rfl := Lexeme.eq_angle_of_closesElement hclose
        rw [Text.seek_append (fun s hs hf => Lexeme.closesElement_append_angle hs hf) h, h0]
        simp
      · cases hm
  | comment =>
    have hstop : "-->".toList = ['-', '-', '>'] := rfl
    rw [admits, Option.isNone_iff_eq_none, hstop] at h
    rw [lexeme, Lexeme.inComment, ← List.cons_append, hstop]
    cases u with
    | nil =>
      rw [List.append_nil, h]
      rfl
    | cons d ds =>
      obtain ⟨mark, next, width, hm⟩ := hu d ds rfl
      rw [lexeme, Lexeme.inComment, hstop] at hm
      split at hm
      · cases hm
      · next h0 =>
        have hclose := (Text.of_seek_eq_some h0).1
        rw [List.drop_zero] at hclose
        obtain ⟨rest, hrest⟩ := Text.exists_of_beginsWith hclose
        rw [hrest] at h0 ⊢
        have hseek := Text.seek_append (u := ['-', '-', '>'] ++ rest)
          (fun s hs hf => Text.beginsWith_append_stop hs hf) h
        rw [hseek, h0]
        simp
      · cases hm
  | attrValue quotes =>
    rw [admits] at h
    rw [lexeme, Lexeme.inValue]
    cases hq : quotes.char? with
    | none =>
      simp only [hq, List.all_cons, Bool.and_eq_true] at h ⊢
      have hstop : ∀ d ds, u = d :: ds → Lexeme.inBareValue d = false := by
        rintro d ds rfl
        obtain ⟨mark, next, width, hm⟩ := hu d ds rfl
        rw [lexeme, Lexeme.inValue] at hm
        simp only [hq] at hm
        split at hm
        · cases hm
        · next hd => simpa using hd
      rw [if_pos h.1, Text.run, if_pos h.1, Text.run_append hstop h.2]
    | some quote =>
      simp only [hq, List.all_cons, Bool.and_eq_true] at h ⊢
      have hstop : ∀ d ds, u = d :: ds → (d != quote) = false := by
        rintro d ds rfl
        obtain ⟨mark, next, width, hm⟩ := hu d ds rfl
        rw [lexeme, Lexeme.inValue] at hm
        simp only [hq] at hm
        split at hm
        · next hd =>
          rw [hd]
          simp
        · cases hm
      rw [if_neg (by simpa using h.1), Text.run, if_pos h.1, Text.run_append hstop h.2]
  | _ => cases h

end TemplateMarkup
