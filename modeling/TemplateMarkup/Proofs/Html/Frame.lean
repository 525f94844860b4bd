/-
# What a run never takes back

Along a run the settings and the depth of control flow stay as they are, and what has been
reported stays reported: `Ledger.Extends` and `Assembly.Extends` say so of two moments of a run,
every operation of an assembly keeps them, and so does the pass as a whole.

The use of it is `Extends.clean`: if nothing is reported in the end, nothing had been reported at
any moment before, so an invariant of runs without faults may be carried along from the start.
-/
import TemplateMarkup.Html.Rewrite
import TemplateMarkup.Proofs.Html.Moves

namespace TemplateMarkup

/-! ## 1. Ledgers -/

/-- The second ledger is a later one of the same run. -/
structure Ledger.Extends (l l' : Ledger) : Prop where
  config : l'.config = l.config
  depth : l'.depth = l.depth
  diagnostics : l.diagnostics <:+ l'.diagnostics

/-- Nothing has been reported. -/
def Ledger.Clean (l : Ledger) : Prop := l.diagnostics = []

namespace Ledger

theorem Extends.refl (l : Ledger) : l.Extends l := ⟨rfl, rfl, List.suffix_refl _⟩

theorem Extends.trans {l l' l'' : Ledger} (h : l.Extends l') (h' : l'.Extends l'') :
    l.Extends l'' :=
  ⟨h'.config.trans h.config, h'.depth.trans h.depth, h.diagnostics.trans h'.diagnostics⟩

/-- **What is clean in the end was clean before.** -/
theorem Extends.clean {l l' : Ledger} (h : l.Extends l') (hc : l'.Clean) : l.Clean := by
  have hs := h.diagnostics
  rw [hc] at hs
  exact List.suffix_nil.mp hs

theorem extends_report (l : Ledger) (location : Span) (fault : Fault) :
    l.Extends (l.report location fault) := ⟨rfl, rfl, List.suffix_cons _ _⟩

theorem not_clean_report (l : Ledger) (location : Span) (fault : Fault) :
    ¬ (l.report location fault).Clean := by
  simp [Clean, report]

end Ledger

/-! ## 2. Assemblies -/

/-- The second assembly is a later moment of the first. -/
structure Assembly.Extends (b b' : Assembly) : Prop where
  entry : b'.entry = b.entry
  inBranch : b'.inBranch = b.inBranch
  ledger : b.ledger.Extends b'.ledger

/-- Nothing has been reported. -/
def Assembly.Clean (b : Assembly) : Prop := b.ledger.Clean

namespace Assembly

theorem Extends.refl (b : Assembly) : b.Extends b := ⟨rfl, rfl, .refl _⟩

theorem Extends.trans {b b' b'' : Assembly} (h : b.Extends b') (h' : b'.Extends b'') :
    b.Extends b'' :=
  ⟨h'.entry.trans h.entry, h'.inBranch.trans h.inBranch, h.ledger.trans h'.ledger⟩

theorem Extends.clean {b b' : Assembly} (h : b.Extends b') (hc : b'.Clean) : b.Clean :=
  h.ledger.clean hc

/-- An operation that leaves the ledger's settings and reports alone. -/
theorem extends_of_eq {b b' : Assembly} (he : b'.entry = b.entry) (hi : b'.inBranch = b.inBranch)
    (hc : b'.ledger.config = b.ledger.config) (hd : b'.ledger.depth = b.ledger.depth)
    (hr : b'.ledger.diagnostics = b.ledger.diagnostics) : b.Extends b' :=
  ⟨he, hi, hc, hd, hr ▸ List.suffix_refl _⟩

theorem extends_enter (b : Assembly) (next : Context) (offset : Nat) :
    b.Extends (b.enter next offset) := by
  unfold enter
  split
  · exact .refl b
  · exact extends_of_eq rfl rfl rfl rfl rfl

theorem extends_report (b : Assembly) (location : Span) (fault : Fault) :
    b.Extends (b.report location fault) := ⟨rfl, rfl, b.ledger.extends_report location fault⟩

theorem not_clean_report (b : Assembly) (location : Span) (fault : Fault) :
    ¬ (b.report location fault).Clean := b.ledger.not_clean_report location fault

theorem extends_setContent (b : Assembly) (nodes : List Node) : b.Extends (b.setContent nodes) := by
  unfold setContent
  split <;> exact extends_of_eq rfl rfl rfl rfl rfl

theorem extends_addContent (b : Assembly) (node : Node) : b.Extends (b.addContent node) :=
  b.extends_setContent _

theorem extends_addText (b : Assembly) (text : Text) (location : Span) :
    b.Extends (b.addText text location) := by
  unfold addText
  split
  · exact b.extends_setContent _
  · exact (extends_of_eq rfl rfl rfl rfl rfl : b.Extends { b with ledger := b.ledger.drawn }).trans
      (extends_setContent _ _)

theorem extends_addOut (b : Assembly) (node : Node) : b.Extends (b.addOut node) :=
  extends_of_eq rfl rfl rfl rfl rfl

theorem extends_addAmongAttrs (b : Assembly) (node : Node) : b.Extends (b.addAmongAttrs node) := by
  unfold addAmongAttrs
  split
  · exact extends_of_eq rfl rfl rfl rfl rfl
  · exact b.extends_addOut node

/-! ## 3. Tags, attributes, values and comments -/

theorem extends_openTag (b : Assembly) (close : Bool) (location : Span) :
    b.Extends (b.openTag close location) := extends_of_eq rfl rfl rfl rfl rfl

theorem extends_addTagName (b : Assembly) (text : Text) (location : Span) :
    b.Extends (b.addTagName text location) := by
  unfold addTagName
  split
  · exact .refl b
  · exact extends_of_eq rfl rfl rfl rfl rfl

theorem extends_finishTagName (b : Assembly) : b.Extends b.finishTagName := by
  unfold finishTagName
  split
  · exact .refl b
  · split
    · exact extends_of_eq rfl rfl rfl rfl rfl
    · exact .refl b

theorem extends_abortTag (b : Assembly) : b.Extends b.abortTag := by
  unfold abortTag
  split
  · exact .refl b
  · next tag _ =>
    have h : b.Extends ({ b with tag := none }.enter tag.outside tag.start) :=
      (extends_of_eq rfl rfl rfl rfl rfl : b.Extends { b with tag := none }).trans
        (extends_enter ..)
    dsimp only
    split
    · exact (h.trans (extends_addText ..)).trans (extends_addOut ..)
    · exact h.trans (extends_addText ..)

theorem extends_addCloseTag (b : Assembly) (tag : TagDraft) (name : Node) (location : Span) :
    b.Extends (b.addCloseTag tag name location) := by
  unfold addCloseTag
  have h : b.Extends { b with ledger := b.ledger.drawnForHtml } :=
    extends_of_eq rfl rfl rfl rfl rfl
  have report {b' : Assembly} (hb : b.Extends b') (p : Bool) (fault : Fault) :
      b.Extends (if p = true then b'.report location fault else b') := by
    split
    · exact hb.trans (extends_report ..)
    · exact hb
  have h' := report (report h (name.rcdata?.isSome && tag.element.isNone) .unexpectedCloseTag)
    (!tag.children.isEmpty && !tag.warned) .closeTagWithAttributes
  refine .trans ?_ (extends_enter ..)
  exact h'.trans (extends_of_eq rfl rfl rfl rfl rfl)

theorem extends_addOpenTag (b : Assembly) (tag : TagDraft) (name : Node) (location : Span)
    (selfClosing bodyFollows : Bool) :
    b.Extends (b.addOpenTag tag name location selfClosing bodyFollows) :=
  (extends_of_eq rfl rfl rfl rfl rfl : b.Extends
    { b with
      ledger := b.ledger.drawnForHtml
      out := .openTag b.ledger.ids.next location name tag.children.reverse selfClosing :: b.out }).trans
    (extends_enter ..)

theorem extends_closeTag (b : Assembly) (selfClosing : Bool) (stop : Nat) (bodyFollows : Bool) :
    b.Extends (b.closeTag selfClosing stop bodyFollows) := by
  unfold closeTag
  have h : b.Extends { b with tag := none } := extends_of_eq rfl rfl rfl rfl rfl
  split
  · exact .refl b
  · split
    · exact b.extends_abortTag
    · dsimp only
      split
      · exact h.trans (extends_addCloseTag ..)
      · exact h.trans (extends_addOpenTag ..)

theorem extends_reportAttr (b : Assembly) (location : Span) :
    b.Extends (b.reportAttr location) := by
  unfold reportAttr
  split
  · exact .refl b
  · exact b.extends_report ..
  · split
    · exact .refl b
    · exact (b.extends_report ..).trans (extends_of_eq rfl rfl rfl rfl rfl)

theorem extends_openAttr (b : Assembly) (location : Span) (name : Option Node) (discard : Bool) :
    b.Extends (b.openAttr location name discard) :=
  (b.extends_reportAttr location).trans (extends_of_eq rfl rfl rfl rfl rfl)

theorem extends_addAttrName (b : Assembly) (text : Text) (location : Span) :
    b.Extends (b.addAttrName text location) := by
  unfold addAttrName
  split
  · exact .refl b
  · split
    · exact .refl b
    · exact extends_of_eq rfl rfl rfl rfl rfl

theorem extends_discardAttr (b : Assembly) : b.Extends b.discardAttr :=
  extends_of_eq rfl rfl rfl rfl rfl

theorem extends_finishAttrName (b : Assembly) : b.Extends b.finishAttrName := by
  unfold finishAttrName
  split
  · exact .refl b
  · split
    · exact extends_of_eq rfl rfl rfl rfl rfl
    · exact .refl b

theorem extends_addAttr (b : Assembly) (attr : AttrDraft) (value : Option Node) (stop : Nat) :
    b.Extends (b.addAttr attr value stop) := by
  unfold addAttr
  split
  · exact .refl b
  · split
    · exact .refl b
    · exact (extends_of_eq rfl rfl rfl rfl rfl :
        b.Extends { b with ledger := b.ledger.drawnForHtml }).trans (extends_addAmongAttrs ..)

theorem extends_endAttr (b : Assembly) (stop : Nat) : b.Extends (b.endAttr stop) := by
  unfold endAttr
  dsimp only
  split
  · exact b.extends_finishAttrName
  · refine .trans ?_ (extends_addAttr ..)
    exact b.extends_finishAttrName.trans (extends_of_eq rfl rfl rfl rfl rfl)

theorem extends_closeAttr (b : Assembly) (stop : Nat) : b.Extends (b.closeAttr stop) :=
  (b.extends_endAttr stop).trans (extends_enter ..)

theorem extends_giveValue (b : Assembly) (value : Node) (stop : Nat) :
    b.Extends (b.giveValue value stop) := by
  unfold giveValue
  split
  · refine .trans ?_ (extends_addAttr ..)
    exact extends_of_eq rfl rfl rfl rfl rfl
  · exact extends_of_eq rfl rfl rfl rfl rfl

theorem extends_fillSlot (b : Assembly) (value : Node) (stop : Nat) :
    b.Extends (b.fillSlot value stop) := (b.extends_giveValue value stop).trans (extends_enter ..)

theorem extends_endValue (b : Assembly) (stop : Nat) : b.Extends (b.endValue stop) := by
  unfold endValue
  split
  · exact .refl b
  · refine .trans ?_ (extends_giveValue ..)
    exact extends_of_eq rfl rfl rfl rfl rfl

theorem extends_closeValue (b : Assembly) (stop : Nat) : b.Extends (b.closeValue stop) := by
  unfold closeValue
  split
  · exact .refl b
  · exact (b.extends_endValue stop).trans (extends_enter ..)

theorem extends_endComment (b : Assembly) (stop : Nat) : b.Extends (b.endComment stop) := by
  unfold endComment
  split
  · exact .refl b
  · refine .trans ?_ (extends_addOut ..)
    exact extends_of_eq rfl rfl rfl rfl rfl

/-! ## 4. Reading -/

theorem extends_reportLexeme (b : Assembly) (location : Span) (l : Lexeme) :
    b.Extends (b.reportLexeme location l) := by
  unfold reportLexeme
  split
  · exact .refl b
  all_goals exact b.extends_report ..

theorem extends_apply (b : Assembly) (mark : Mark) (next : Context) (text : Text)
    (location : Span) : b.Extends (b.apply mark next text location) := by
  cases mark <;> dsimp only [apply]
  case skip =>
    refine .trans ?_ (extends_enter ..)
    split
    · exact b.extends_discardAttr
    · exact .refl b
  case tagStart close => exact (b.extends_openTag ..).trans (extends_enter ..)
  case tagNameChars => exact (b.extends_addTagName ..).trans (extends_enter ..)
  case tagNameEnd => exact b.extends_finishTagName.trans (extends_enter ..)
  case tagAbort =>
    split
    · exact b.extends_abortTag
    · exact b.extends_enter ..
  case tagEnd selfClosing =>
    split
    · exact b.extends_closeTag ..
    · exact b.extends_report ..
  case attrNameStart => exact (b.extends_openAttr ..).trans (extends_enter ..)
  case attrNameChar => exact (b.extends_addAttrName ..).trans (extends_enter ..)
  case attrNameEnd => exact (b.extends_endAttr ..).trans (extends_enter ..)
  case attrEquals => exact b.extends_finishAttrName.trans (extends_enter ..)
  case valueStart quotes =>
    refine .trans ?_ (extends_enter ..)
    exact extends_of_eq rfl rfl rfl rfl rfl
  case valueEnd =>
    split
    · exact (b.extends_endValue ..).trans (extends_enter ..)
    · split
      · exact (b.extends_report ..).trans (extends_enter ..)
      · exact (b.extends_report ..).trans (extends_addText ..)
  case commentStart =>
    refine .trans ?_ (extends_enter ..)
    exact extends_of_eq rfl rfl rfl rfl rfl
  case commentEnd =>
    split
    · exact (b.extends_endComment ..).trans (extends_enter ..)
    · exact (b.extends_report ..).trans (extends_addText ..)

theorem extends_release (b : Assembly) (run : RawRun) (held : Option Held) (pos : Nat) :
    b.Extends (b.release run held pos) := by
  cases held with
  | none => exact .refl b
  | some h => exact b.extends_addText ..

theorem extends_read (b : Assembly) (run : RawRun) (t : Text) : b.Extends (b.read run 0 none t) :=
  read_rule (P := fun b' _ _ => b.Extends b')
    (fun _ _ h _ => (h.trans (extends_reportLexeme ..)).trans (extends_enter ..))
    (fun _ h _ _ => h.trans (extends_addText ..))
    (fun _ _ h _ => (h.trans (extends_reportLexeme ..)).trans (extends_apply ..))
    (.refl b) (fun _ h => by cases h)

theorem extends_readRun (b : Assembly) (run : RawRun) : b.Extends (b.readRun run) := by
  have h : b.Extends { b with ledger := b.ledger.countRun } := extends_of_eq rfl rfl rfl rfl rfl
  exact (h.trans (extends_read ..)).trans (extends_of_eq rfl rfl rfl rfl rfl)

theorem extends_readCollected (b : Assembly) (run : Option RawRun) :
    b.Extends (b.readCollected run) := by
  cases run with
  | none => exact .refl b
  | some run => exact b.extends_readRun run

theorem extends_collect (b : Assembly) (run : Option RawRun) (text : Text) (location : Span) :
    b.Extends (b.collect run text location).1 := by
  unfold collect
  split
  · exact .refl b
  · split
    · exact .refl b
    · exact b.extends_readRun _

theorem extends_reach (b : Assembly) (offset : Nat) : b.Extends (b.reach offset) :=
  extends_of_eq rfl rfl rfl rfl rfl

/-! ## 5. Placing -/

theorem extends_placeContent (b : Assembly) (node : Node) : b.Extends (b.placeContent node) := by
  unfold placeContent
  split
  · exact b.extends_addContent node
  · exact (b.extends_addContent node).trans (extends_enter ..)

theorem extends_placeInTag (b : Assembly) (node : Node) : b.Extends (b.placeInTag node) := by
  unfold placeInTag
  split
  · exact (b.extends_openAttr ..).trans (extends_enter ..)
  · exact b.extends_addAmongAttrs node

theorem extends_placeTagName (b : Assembly) (node : Node) : b.Extends (b.placeTagName node) := by
  unfold placeTagName
  split
  · dsimp only
    refine .trans ?_ (extends_enter ..)
    split
    · exact extends_of_eq rfl rfl rfl rfl rfl
    · exact b.extends_addOut node
  · exact ((b.extends_report ..).trans (extends_abortTag _)).trans (extends_placeContent ..)

theorem extends_placeBeforeValue (b : Assembly) (node : Node) :
    b.Extends (b.placeBeforeValue node) := by
  unfold placeBeforeValue
  split
  · refine .trans ?_ (extends_enter ..)
    exact extends_of_eq rfl rfl rfl rfl rfl
  · refine .trans ?_ (extends_enter ..)
    exact extends_of_eq rfl rfl rfl rfl rfl
  · exact b.extends_fillSlot ..
  · exact b.extends_addAmongAttrs node

theorem extends_reportJoined (b : Assembly) (node : Node) : b.Extends (b.reportJoined node) := by
  unfold reportJoined
  split
  · exact b.extends_report ..
  · exact .refl b

theorem extends_place (b : Assembly) (node : Node) : b.Extends (b.place node) := by
  unfold place
  split
  all_goals try exact b.extends_placeContent node
  · exact b.extends_placeTagName node
  · exact (((b.extends_reportJoined node).trans (extends_finishTagName _)).trans
      (extends_enter ..)).trans (extends_placeInTag ..)
  · exact b.extends_placeInTag node
  · split
    · exact .refl b
    · exact ((b.extends_reportJoined node).trans (extends_closeAttr ..)).trans
        (extends_placeInTag ..)
  · exact b.extends_placeBeforeValue node

theorem extends_settle (b : Assembly) (location : Span) : b.Extends (b.settle location) := by
  unfold settle
  split
  · exact (b.extends_report ..).trans (extends_abortTag _)
  · exact b.extends_finishTagName.trans (extends_enter ..)
  · exact b.extends_closeAttr _
  · exact .refl b

theorem extends_placeFlow (b : Assembly) (flow : Flow) (exit : Context) :
    b.Extends (b.placeFlow flow exit) := by
  unfold placeFlow
  split
  · split
    · exact b.extends_fillSlot ..
    · exact (b.extends_addAmongAttrs _).trans (extends_enter ..)
  · exact (b.extends_addAmongAttrs _).trans (extends_enter ..)
  · exact (b.extends_addContent _).trans (extends_enter ..)

/-! ## 6. Ends -/

theorem extends_settleAtEnd (b : Assembly) : b.Extends b.settleAtEnd := by
  unfold settleAtEnd
  split
  · exact b.extends_abortTag
  · exact b.extends_finishTagName.trans (extends_enter ..)
  · exact b.extends_closeAttr _
  · exact .refl b

/-- Closes the attribute that is open, if there is one. -/
def closeAnyAttr (b : Assembly) (stop : Nat) : Assembly :=
  if b.attr.isSome then b.closeAttr stop else b

/-- Closes the comment that is open, if there is one. -/
def closeAnyComment (b : Assembly) (stop : Nat) : Assembly :=
  if b.comment.isSome then (b.endComment stop).enter .pcdata stop else b

/-- The drafts are closed from the inside out, one operation for each. -/
theorem closeDrafts_eq (b : Assembly) :
    b.closeDrafts = (((b.settleAtEnd.closeValue b.offset).closeAnyAttr b.offset).closeTag
      false b.offset false).closeAnyComment b.offset := rfl

theorem extends_closeAnyAttr (b : Assembly) (stop : Nat) : b.Extends (b.closeAnyAttr stop) := by
  unfold closeAnyAttr
  split
  · exact b.extends_closeAttr stop
  · exact .refl b

theorem extends_closeAnyComment (b : Assembly) (stop : Nat) :
    b.Extends (b.closeAnyComment stop) := by
  unfold closeAnyComment
  split
  · exact (b.extends_endComment stop).trans (extends_enter ..)
  · exact .refl b

theorem extends_closeDrafts (b : Assembly) : b.Extends b.closeDrafts := by
  rw [closeDrafts_eq]
  have h := b.extends_settleAtEnd.trans (extends_closeValue _ b.offset)
  have h' := (h.trans (extends_closeAnyAttr _ b.offset)).trans (extends_closeTag _ false b.offset false)
  exact h'.trans (extends_closeAnyComment ..)

theorem extends_endBranch (b : Assembly) : b.Extends b.endBranch := by
  unfold endBranch
  split
  · exact b.extends_closeDrafts
  · exact b.extends_closeDrafts.trans (extends_report ..)

theorem extends_endBlock (b : Assembly) (block : BlockKind) : b.Extends (b.endBlock block) := by
  unfold endBlock checkContext
  refine .trans ?_ (extends_closeDrafts _)
  split
  · exact b.extends_report ..
  · exact .refl b

/-- The ledger of an assembly may be replaced by a later one. -/
theorem extends_ledger {b : Assembly} {l : Ledger} (h : b.ledger.Extends l) :
    b.Extends { b with ledger := l } := ⟨rfl, rfl, h⟩

end Assembly

/-! ## 7. The pass -/

/-- Control flow of which branches do not agree on where they end. -/
def Fault.isMismatch : Fault → Bool
  | .branchesDisagree .. | .loopChangesContext .. => true
  | _ => false

/-- What every report of a loop keeps holds after the loop. -/
theorem reconcileLoop_induct {P : Ledger → Prop} {location : Span}
    (hreport : ∀ {l : Ledger} {fault : Fault}, fault.isMismatch = true → P l →
      P (l.report location fault)) (command : String) (entry : Context) :
    ∀ (exits : Exits) {l : Ledger}, P l → P (reconcileLoop l location command entry exits)
  | [], _, h => h
  | (kind, exit) :: exits, _, h => by
    unfold reconcileLoop
    refine reconcileLoop_induct hreport command entry exits ?_
    split
    · exact h
    · cases kind <;> exact hreport rfl h

/-- What every report that branches do not agree keeps holds after control flow. -/
theorem reconcile_induct {P : Ledger → Prop} {location : Span}
    (hreport : ∀ {l : Ledger} {fault : Fault}, fault.isMismatch = true → P l →
      P (l.report location fault))
    {l : Ledger} (h : P l) (head : FlowHead) (entry : Context) (exits : Exits) :
    P (reconcile l location head entry exits).2 := by
  unfold reconcile
  split
  · exact reconcileLoop_induct hreport _ entry exits h
  · dsimp only
    split
    · exact h
    · unfold reconcileChoice
      split
      · exact h
      · exact hreport rfl h

theorem reconcileLoop_extends (location : Span) (command : String) (entry : Context)
    (exits : Exits) (l : Ledger) : l.Extends (reconcileLoop l location command entry exits) :=
  reconcileLoop_induct (P := l.Extends) (fun _ h => h.trans (Ledger.extends_report ..)) command
    entry exits (.refl l)

/-- The html goes on where a loop began, and where the first branch of another flow ends. -/
theorem reconcile_exit (l : Ledger) (location : Span) (head : FlowHead) (entry : Context)
    (exits : Exits) : (reconcile l location head entry exits).1
      = if head.isLoop then entry else (exits.head?.map Prod.snd).getD entry := by
  unfold reconcile
  split
  · rfl
  · cases exits with
    | nil => split <;> rfl
    | cons e exits => rfl

theorem reconcile_extends (l : Ledger) (location : Span) (head : FlowHead) (entry : Context)
    (exits : Exits) : l.Extends (reconcile l location head entry exits).2 :=
  reconcile_induct (P := l.Extends) (fun _ h => h.trans (Ledger.extends_report ..)) (.refl l) head
    entry exits

mutual

theorem feedNodes_extends : ∀ (nodes : List Node) (b : Assembly) (run : Option RawRun),
    b.Extends (feedNodes b run nodes)
  | [], b, run => by
    rw [feedNodes]
    exact b.extends_readCollected run
  | n :: nodes, b, run => by
    rw [feedNodes]
    split
    · next text _ =>
      exact (b.extends_collect run text n.location).trans (feedNodes_extends nodes _ _)
    · exact ((b.extends_readCollected run).trans (feedNode_extends n _)).trans
        (feedNodes_extends nodes _ _)

theorem feedNode_extends : ∀ (n : Node) (b : Assembly), b.Extends (feedNode b n)
  | .call id location callee params, b => by
    rw [feedNode]
    exact ((Assembly.extends_ledger (rewriteParams_extends params b.ledger)).trans
      (Assembly.extends_place ..)).trans (Assembly.extends_reach ..)
  | .binding id location var value, b => by
    rw [feedNode]
    exact ((Assembly.extends_ledger (rewriteValue_extends value b.ledger .letContent location)).trans
      (Assembly.extends_place ..)).trans (Assembly.extends_reach ..)
  | .flow flow, b => by
    rw [feedNode]
    have h := (b.extends_settle flow.location).trans (Assembly.extends_ledger
      (rewriteFlow_extends flow (b.settle flow.location).ledger (b.settle flow.location).context))
    exact (h.trans (Assembly.extends_placeFlow ..)).trans (Assembly.extends_reach ..)
  | .raw .., b | .print .., b | .openTag .., b | .closeTag .., b | .attr .., b | .attrValue .., b
  | .comment .., b => by
    rw [feedNode]
    exact (b.extends_place _).trans (Assembly.extends_reach ..)
    all_goals simp

theorem rewriteFlow_extends : ∀ (flow : Flow) (l : Ledger) (entry : Context),
    l.Extends (rewriteFlow l entry flow).2.2
  | ⟨id, location, head, branches⟩, l, entry => by
    rw [rewriteFlow]
    dsimp only
    split
    · exact l.extends_report ..
    · have h := rewriteBranches_extends branches { l with depth := l.depth + 1 } entry location.start
      refine Ledger.Extends.trans ?_ (reconcile_extends _ location head entry _)
      exact ⟨h.config, rfl, h.diagnostics⟩

theorem rewriteBranches_extends : ∀ (branches : List Branch) (l : Ledger) (entry : Context)
    (offset : Nat), l.Extends (rewriteBranches l entry offset branches).2.2
  | [], l, entry, offset => by
    rw [rewriteBranches]
    exact .refl l
  | branch :: branches, l, entry, offset => by
    rw [rewriteBranches]
    exact (rewriteBranch_extends branch l entry offset).trans
      (rewriteBranches_extends branches _ entry offset)

theorem rewriteBranch_extends : ∀ (branch : Branch) (l : Ledger) (entry : Context) (offset : Nat),
    l.Extends (rewriteBranch l entry offset branch).2.2
  | ⟨id, kind, nodes⟩, l, entry, offset => by
    rw [rewriteBranch]
    have h : l.Extends l.countBranch := ⟨rfl, rfl, List.suffix_refl _⟩
    exact h.trans ((feedNodes_extends nodes (.start l.countBranch entry true offset) none).trans
      (Assembly.extends_endBranch _)).ledger

theorem rewriteParams_extends : ∀ (params : List Param) (l : Ledger),
    l.Extends (rewriteParams l params).2
  | [], l => by
    rw [rewriteParams]
    exact .refl l
  | p :: params, l => by
    rw [rewriteParams]
    exact (rewriteParam_extends p l).trans (rewriteParams_extends params _)

theorem rewriteParam_extends : ∀ (p : Param) (l : Ledger), l.Extends (rewriteParam l p).2
  | ⟨id, location, name, value⟩, l => by
    rw [rewriteParam]
    exact rewriteValue_extends value l .paramContent location

theorem rewriteValue_extends : ∀ (value : Value) (l : Ledger) (block : BlockKind)
    (location : Span), l.Extends (rewriteValue l block location value).2
  | .expr expr, l, block, location => by
    rw [rewriteValue]
    exact .refl l
  | .content kind nodes, l, block, location => by
    rw [rewriteValue]
    have h : l.Extends l.countBlock := ⟨rfl, rfl, List.suffix_refl _⟩
    dsimp only
    split
    · next entry _ =>
      exact h.trans ((feedNodes_extends nodes (.start l.countBlock entry false location.start)
        none).trans (Assembly.extends_endBlock _ block)).ledger
    · exact h.trans (enterNodes_extends nodes l.countBlock)

theorem enterNodes_extends : ∀ (nodes : List Node) (l : Ledger),
    l.Extends (enterNodes l nodes).2
  | [], l => by
    rw [enterNodes]
    exact .refl l
  | n :: nodes, l => by
    rw [enterNodes]
    exact (enterNode_extends n l).trans (enterNodes_extends nodes _)

theorem enterNode_extends : ∀ (n : Node) (l : Ledger), l.Extends (enterNode l n).2
  | .call id location callee params, l => by
    rw [enterNode]
    exact rewriteParams_extends params l
  | .binding id location var value, l => by
    rw [enterNode]
    exact rewriteValue_extends value l .letContent location
  | .flow flow, l => by
    rw [enterNode]
    exact enterFlow_extends flow l
  | .raw .., l | .print .., l | .openTag .., l | .closeTag .., l | .attr .., l | .attrValue .., l
  | .comment .., l => by
    rw [enterNode]
    exact .refl l
    all_goals simp

theorem enterFlow_extends : ∀ (flow : Flow) (l : Ledger), l.Extends (enterFlow l flow).2
  | ⟨id, location, head, branches⟩, l => by
    rw [enterFlow]
    exact enterBranches_extends branches l

theorem enterBranches_extends : ∀ (branches : List Branch) (l : Ledger),
    l.Extends (enterBranches l branches).2
  | [], l => by
    rw [enterBranches]
    exact .refl l
  | branch :: branches, l => by
    rw [enterBranches]
    exact (enterBranch_extends branch l).trans (enterBranches_extends branches _)

theorem enterBranch_extends : ∀ (branch : Branch) (l : Ledger),
    l.Extends (enterBranch l branch).2
  | ⟨id, kind, nodes⟩, l => by
    rw [enterBranch]
    exact enterNodes_extends nodes l

end

/-- Content stays content of its kind. -/
theorem exists_rewriteValue_eq (l : Ledger) (block : BlockKind) (location : Span)
    (kind : Option ContentKind) (nodes : List Node) :
    ∃ nodes', (rewriteValue l block location (.content kind nodes)).1 = .content kind nodes' := by
  rw [rewriteValue]
  dsimp only
  split
  · exact ⟨_, rfl⟩
  · exact ⟨_, rfl⟩

end TemplateMarkup
