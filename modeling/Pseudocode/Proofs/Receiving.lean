/-
What variables receive.

An assignment and a SCAN both offer values to variables, one after another.  A variable takes
what it is offered when it is declared and the value fits its type; at the first offer that
is not taken the run stops, and the variables before it keep what they have got.  As long as
every offer is taken, the order matters only for a variable that is offered several values,
and then the last one counts.  Types never change on the way, so whether an offer is taken
can be told from the store in front of the first one.

For a SCAN this tells all it does.  It takes one line off the input, if there is one, and
then its targets are offered the fields of that line.
-/
import Pseudocode.Proofs.Reading

namespace Pseudocode

/-! ### Stores and offers -/

/-- A value that is offered to a variable. -/
structure Offer where
  target : Name
  /-- What is offered to a variable of a given type. -/
  value : Ty → Value
  /-- Where a value that does not fit is reported. -/
  span : Span

namespace Offer

/-- What a variable of type `ty` makes of the offer, if its value fits. -/
def worth (o : Offer) (ty : Ty) : Option Value :=
  (o.value ty).coerce? ty

/-- The error when the offer is not taken by a name that is not declared or has the given
type. -/
def refusal (o : Offer) : Option Ty → Error
  | none => (RunFault.binding (.undeclared o.target.val)).at o.target.span
  | some ty => (RunFault.binding (.mismatch (o.value ty).ty o.target.val)).at o.span

/-- The last of the offers to a name. -/
def last? (offers : List Offer) (x : String) : Option Offer :=
  offers.reverse.find? fun o => o.target.val = x

theorem last?_cons (o : Offer) (offers : List Offer) (x : String) :
    last? (o :: offers) x =
      (last? offers x).or (if o.target.val = x then some o else none) := by
  unfold last?
  rw [List.reverse_cons, List.find?_append, List.find?_singleton]
  simp only [decide_eq_true_eq]

theorem last?_eq_none_iff {offers : List Offer} {x : String} :
    last? offers x = none ↔ ∀ o ∈ offers, o.target.val ≠ x := by
  unfold last?
  simp

theorem mem_of_last?_eq_some {offers : List Offer} {x : String} {o : Offer}
    (h : last? offers x = some o) : o ∈ offers :=
  List.mem_reverse.1 (List.mem_of_find?_eq_some h)

end Offer

namespace Store

/-- The store in which a variable holds another value, if it is declared. -/
def put (s : Store) (x : String) (v : Value) : Store :=
  (s.assign? x v).getD s

theorem get?_put (s : Store) (x : String) (v : Value) (y : String) :
    (s.put x v).get? y =
      if x = y then (s.get? y).map fun var => ⟨var.ty, some v⟩ else s.get? y := by
  unfold put
  cases hs : s.assign? x v with
  | some s' =>
      rw [Option.getD_some, get?_of_assign? hs]
      by_cases hxy : x = y
      · subst hxy
        rw [if_pos rfl]
      · rw [if_neg hxy, if_neg (Ne.symm hxy)]
  | none =>
      have hx : s.get? x = none := Option.map_eq_none_iff.1 hs
      by_cases hxy : x = y
      · subst hxy
        rw [if_pos rfl, Option.getD_none, hx, Option.map_none]
      · rw [if_neg hxy, Option.getD_none]

@[simp]
theorem ty?_put (s : Store) (x : String) (v : Value) (y : String) :
    (s.put x v).ty? y = s.ty? y := by
  rw [ty?, get?_put]
  by_cases hxy : x = y
  · rw [if_pos hxy, Option.map_map]
    rfl
  · rw [if_neg hxy]
    rfl

/-- The variable is declared, and the value fits it. -/
def Accepts (s : Store) (o : Offer) : Prop :=
  ∃ ty v, s.ty? o.target.val = some ty ∧ o.worth ty = some v

/-- In the second store each variable holds what the last offer to it is worth, and what it
held before if there is none. -/
def Receives (s : Store) (offers : List Offer) (s' : Store) : Prop :=
  ∀ x, s'.get? x =
    match Offer.last? offers x with
    | none => s.get? x
    | some o => (s.get? x).map fun var => ⟨var.ty, o.worth var.ty⟩

theorem Receives.nil (s : Store) : s.Receives [] s :=
  fun _ => rfl

theorem accepts_put {s : Store} {x : String} {v : Value} {o : Offer} :
    (s.put x v).Accepts o ↔ s.Accepts o := by
  unfold Accepts
  rw [ty?_put]

/-- An offer that is taken, and then others. -/
theorem Receives.cons {s s' : Store} {o : Offer} {offers : List Offer} {ty : Ty} {v : Value}
    (hty : s.ty? o.target.val = some ty) (hv : o.worth ty = some v)
    (h : (s.put o.target.val v).Receives offers s') : s.Receives (o :: offers) s' := by
  intro x
  have hx := h x
  rw [get?_put] at hx
  rw [hx, Offer.last?_cons]
  by_cases hname : o.target.val = x
  · subst hname
    obtain ⟨var, hvar, rfl⟩ := Option.map_eq_some_iff.1 hty
    cases Offer.last? offers o.target.val with
    | none => simp [hvar, hv]
    | some o' => simp [hvar]
  · rw [if_neg hname, if_neg hname, Option.or_none]

theorem Receives.get?_of_forall_ne {s s' : Store} {offers : List Offer} {x : String}
    (h : s.Receives offers s') (hx : ∀ o ∈ offers, o.target.val ≠ x) : s'.get? x = s.get? x := by
  rw [h x, Offer.last?_eq_none_iff.2 hx]

/-- A variable holds what the offers to it are worth, if they are all worth the same. -/
theorem Receives.get?_of_forall_worth {s s' : Store} {offers : List Offer} {o : Offer}
    {var : Variable} {w : Option Value} (h : s.Receives offers s') (ho : o ∈ offers)
    (hvar : s.get? o.target.val = some var) (hw : ∀ o ∈ offers, o.worth var.ty = w) :
    s'.get? o.target.val = some ⟨var.ty, w⟩ := by
  rw [h, hvar]
  cases hlast : Offer.last? offers o.target.val with
  | none => exact absurd rfl (Offer.last?_eq_none_iff.1 hlast o ho)
  | some o' =>
      rw [← hw o' (Offer.mem_of_last?_eq_some hlast)]
      rfl

end Store

/-! ### Offers, one after another -/

namespace Run

variable {ι σ : Type}

/-- Offers a variable a value. -/
def offer (o : Offer) : Run ι σ Unit := do
  let ty ← inspect (tyOf o.target)
  assign (o.value ty) o.span o.target

theorem offer_of_accepts {o : Offer} {m : Machine ι σ} {ty : Ty} {v : Value}
    (hty : m.store.ty? o.target.val = some ty) (hv : o.worth ty = some v) :
    offer o m = .ok () { m with store := m.store.put o.target.val v } := by
  have htyOf : tyOf o.target m.store = .ok ty := by rw [tyOf, hty]
  have hfit : fit ty o.target.val (o.value ty) o.span = .ok v := by
    rw [fit, show (o.value ty).coerce? ty = some v from hv]
  rw [offer, inspect_bind_of_ok htyOf]
  refine (inspect_bind_of_ok (a := v) ?_).trans rfl
  rw [fitted, htyOf, ok_bind, hfit]

theorem offer_of_not_accepts {o : Offer} {m : Machine ι σ} (h : ¬ m.store.Accepts o) :
    offer o m = .error (.failed (o.refusal (m.store.ty? o.target.val))) m := by
  cases hty : m.store.ty? o.target.val with
  | none =>
      rw [offer]
      refine inspect_bind_of_error ?_
      rw [tyOf, hty]
      rfl
  | some ty =>
      have hv : (o.value ty).coerce? ty = none := by
        rw [Option.eq_none_iff_forall_ne_some]
        intro v hv
        exact h ⟨ty, v, hty, hv⟩
      have htyOf : tyOf o.target m.store = .ok ty := by rw [tyOf, hty]
      rw [offer, inspect_bind_of_ok htyOf]
      refine inspect_bind_of_error ?_
      rw [fitted, htyOf, ok_bind, fit, hv]
      rfl

/-- How a sequence of offers ends: all are taken, or the first one that is not taken stops
it. -/
inductive OffersEnd (m : Machine ι σ) (offers : List Offer) :
    EStateM.Result Stop (Machine ι σ) Unit → Prop
  | all {store : Store} (haccepts : ∀ o ∈ offers, m.store.Accepts o)
      (hstore : m.store.Receives offers store) :
      OffersEnd m offers (.ok () { m with store := store })
  | upTo {done later : List Offer} {o : Offer} {store : Store}
      (hoffers : offers = done ++ o :: later) (hdone : ∀ o ∈ done, m.store.Accepts o)
      (ho : ¬ m.store.Accepts o) (hstore : m.store.Receives done store) :
      OffersEnd m offers
        (.error (.failed (o.refusal (m.store.ty? o.target.val))) { m with store := store })

/-- **What a sequence of offers does.** -/
theorem forM_offer (offers : List Offer) (m : Machine ι σ) :
    OffersEnd m offers (offers.forM offer m) := by
  induction offers generalizing m with
  | nil => exact .all (by simp) (.nil m.store)
  | cons o offers ih =>
      show OffersEnd m (o :: offers) ((offer o >>= fun _ => offers.forM offer) m)
      by_cases ho : m.store.Accepts o
      · obtain ⟨ty, v, hty, hv⟩ := ho
        rw [state_bind_of_ok (offer_of_accepts hty hv)]
        -- The rest starts from a store with the same types, so it accepts the same.
        have hrest := ih { m with store := m.store.put o.target.val v }
        generalize offers.forM offer _ = result at hrest
        cases hrest with
        | all haccepts hstore =>
            refine .all ?_ (.cons hty hv hstore)
            rw [List.forall_mem_cons]
            exact ⟨⟨ty, v, hty, hv⟩, fun o' ho' => Store.accepts_put.1 (haccepts o' ho')⟩
        | @upTo done later o' store hoffers hdone ho' hstore =>
            rw [Store.ty?_put]
            have hsplit : o :: offers = (o :: done) ++ o' :: later := by
              rw [hoffers, List.cons_append]
            refine .upTo hsplit ?_ ?_ (.cons hty hv hstore)
            · rw [List.forall_mem_cons]
              exact ⟨⟨ty, v, hty, hv⟩, fun b hb => Store.accepts_put.1 (hdone b hb)⟩
            · exact fun h => ho' (Store.accepts_put.2 h)
      · rw [state_bind_of_error (offer_of_not_accepts ho)]
        exact .upTo (List.nil_append _).symm (by simp) ho (.nil m.store)

end Run

/-! ### The line that a SCAN takes, and its fields -/

/-- Fields are what stands between commas. -/
theorem Field.splitCommas_eq_splitOn (cs : List Char) : splitCommas cs = cs.splitOn ',' := by
  induction cs with
  | nil => rfl
  | cons c cs ih =>
      rw [splitCommas, List.splitOn, List.splitOnP_cons_eq_if_modifyHead, ← List.splitOn, ← ih]
      by_cases hc : c = ','
      · rw [if_pos hc, if_pos (by simp [hc])]
      · rw [if_neg hc, if_neg (by simp [hc])]
        cases hsplit : splitCommas cs with
        | nil =>
            rw [ih] at hsplit
            exact absurd hsplit (List.splitOn_ne_nil _ _)
        | cons field fields => rfl

namespace Input

/-- The bytes are the first line of the input, with its line feed if it has one, and the
second input is left behind it. -/
structure FirstLine (i : Input) (line : List UInt8) (i' : Input) : Prop where
  split : i.unread = line ++ i'.unread
  nonempty : line ≠ []
  keepsLineEnds : i'.keepsLineEnds = i.keepsLineEnds
  ends : (∃ body, Text.lineFeed ∉ body ∧ line = body ++ [Text.lineFeed]) ∨
    Text.lineFeed ∉ line ∧ i'.unread = []

theorem nextLine_firstLine {i : Input} (h : i.unread ≠ []) :
    ∃ line, i.FirstLine line i.nextLine.2 ∧ i.nextLine.1 = lineOf i.keepsLineEnds line := by
  rw [nextLine_of_ne_nil h]
  have hsplit := (Text.splitLine_append i.unread).symm
  refine ⟨(Text.splitLine i.unread).1, ⟨hsplit, Text.splitLine_fst_ne_nil h, rfl, ?_⟩, rfl⟩
  by_cases hfeed : Text.lineFeed ∈ i.unread
  · obtain ⟨body, rest, hunread, hbody⟩ := List.eq_append_cons_of_mem hfeed
    left
    refine ⟨body, hbody, ?_⟩
    rw [hunread, Text.splitLine_append_lineFeed hbody]
  · right
    rw [Text.splitLine_of_not_mem hfeed]
    exact ⟨hfeed, rfl⟩

theorem lineOf_ne_ended (keepsLineEnds : Bool) (bytes : List UInt8) :
    lineOf keepsLineEnds bytes ≠ .ended := by
  unfold lineOf
  cases Text.ofBytes? bytes with
  | none => simp
  | some s => cases keepsLineEnds <;> simp

/-- A line that cannot be read is not text. -/
theorem lineOf_eq_failed {keepsLineEnds : Bool} {bytes : List UInt8} {message : String}
    (h : lineOf keepsLineEnds bytes = .failed message) :
    message = unreadableMessage ∧ Text.ofBytes? bytes = none := by
  unfold lineOf at h
  cases hbytes : Text.ofBytes? bytes with
  | none =>
      rw [hbytes] at h
      cases h
      exact ⟨rfl, rfl⟩
  | some s =>
      rw [hbytes] at h
      cases keepsLineEnds <;> simp at h

/-- The first line of the input is a text with these fields, and the second input is left
behind it.  Blanks do not count. -/
def HasFields (i : Input) (fields : List (List Char)) (i' : Input) : Prop :=
  ∃ line s, i.FirstLine line i' ∧ lineOf i.keepsLineEnds line = .text s ∧
    fields = (s.toList.filter (· ≠ ' ')).splitOn ','

end Input

/-- Each target is offered the value of its field. -/
def Field.offers (targets : List Name) (fields : List (List Char)) : List Offer :=
  (targets.zip fields).map fun (name, field) => ⟨name, (Field.value · field), name.span⟩

/-- A field that is not taken is reported at its target. -/
theorem Field.span_refusal {targets : List Name} {fields : List (List Char)} {o : Offer}
    (ho : o ∈ Field.offers targets fields) (ty? : Option Ty) :
    (o.refusal ty?).span = o.target.span := by
  obtain ⟨⟨name, field⟩, -, rfl⟩ := List.mem_map.1 ho
  cases ty? with
  | none => rfl
  | some ty => rfl

namespace Run

variable {σ : Type}

/-- The ways in which a SCAN ends, each with the machine that it leaves. -/
inductive ScanEnds (m : Machine Input σ) (targets : List Name) (span : Span) :
    EStateM.Result Stop (Machine Input σ) Unit → Prop
  /-- There is no line. -/
  | ended (h : m.input.unread = []) :
      ScanEnds m targets span (.error (.failed (RunFault.missingInput.at span)) m)
  /-- The line is not text. -/
  | unreadable {line : List UInt8} {i : Input} (hline : m.input.FirstLine line i)
      (h : Text.ofBytes? line = none) :
      ScanEnds m targets span
        (.error (.failed ((RunFault.device Input.unreadableMessage).at span)) { m with input := i })
  /-- There are more fields than targets, or fewer. -/
  | miscounted {fields : List (List Char)} {i : Input} (hfields : m.input.HasFields fields i)
      (h : fields.length ≠ targets.length) :
      ScanEnds m targets span
        (.error (.failed (RunFault.missingInput.at span)) { m with input := i })
  /-- Every target takes its field. -/
  | received {fields : List (List Char)} {i : Input} {store : Store}
      (hfields : m.input.HasFields fields i) (hlength : fields.length = targets.length)
      (haccepts : ∀ o ∈ Field.offers targets fields, m.store.Accepts o)
      (hstore : m.store.Receives (Field.offers targets fields) store) :
      ScanEnds m targets span (.ok () { m with store := store, input := i })
  /-- The targets up to one that is not declared, or whose field does not fit, take theirs. -/
  | refused {fields : List (List Char)} {i : Input} {store : Store} {done later : List Offer}
      {o : Offer} {e : Error} (hfields : m.input.HasFields fields i)
      (hlength : fields.length = targets.length)
      (hoffers : Field.offers targets fields = done ++ o :: later)
      (hdone : ∀ o ∈ done, m.store.Accepts o) (ho : ¬ m.store.Accepts o)
      (hstore : m.store.Receives done store)
      (he : e = o.refusal (m.store.ty? o.target.val)) (hspan : e.span = o.target.span) :
      ScanEnds m targets span (.error (.failed e) { m with store := store, input := i })

/-- What a SCAN does with the line it has taken. -/
def deliver (targets : List Name) (span : Span) : Line → Run Input σ Unit
  | .ended => fail .missingInput span
  | .failed message => fail (.device message) span
  | .text s =>
    if (Field.ofLine s).length = targets.length then
      (Field.offers targets (Field.ofLine s)).forM offer
    else fail .missingInput span

theorem scan_eq_deliver (targets : List Name) (span : Span) (m : Machine Input σ) :
    scan targets span m =
      deliver targets span m.input.nextLine.1 (m.withInput m.input.nextLine.2) := by
  have hread : readLine span m = received span m.input.nextLine.1
    (m.withInput m.input.nextLine.2) := rfl
  cases hline : m.input.nextLine.1 with
  | ended =>
      rw [hline] at hread
      exact state_bind_of_error hread
  | failed message =>
      rw [hline] at hread
      exact state_bind_of_error hread
  | text s =>
      rw [hline] at hread
      refine (state_bind_of_ok hread).trans ?_
      rw [deliver, Field.offers]
      dsimp only
      by_cases hlength : (Field.ofLine s).length = targets.length
      · rw [if_pos hlength, if_pos hlength]
        rw [List.forM_eq_forM, List.forM_eq_forM, List.forM_map]
        rfl
      · rw [if_neg hlength, if_neg hlength]

theorem scan_ends (targets : List Name) (span : Span) (m : Machine Input σ) :
    ScanEnds m targets span (scan targets span m) := by
  rw [scan_eq_deliver]
  by_cases hinput : m.input.unread = []
  · rw [Input.nextLine_of_nil hinput]
    exact .ended hinput
  obtain ⟨line, hline, hread⟩ := Input.nextLine_firstLine hinput
  generalize m.input.nextLine.2 = i at hline
  rw [hread]
  cases htext : Input.lineOf m.input.keepsLineEnds line with
  | ended => exact absurd htext (Input.lineOf_ne_ended _ _)
  | failed message =>
      obtain ⟨rfl, hbytes⟩ := Input.lineOf_eq_failed htext
      exact .unreadable hline hbytes
  | text s =>
      have hfields : m.input.HasFields (Field.ofLine s) i :=
        ⟨line, s, hline, htext, Field.splitCommas_eq_splitOn _⟩
      rw [deliver]
      by_cases hlength : (Field.ofLine s).length = targets.length
      · rw [if_pos hlength]
        have hend := forM_offer (Field.offers targets (Field.ofLine s)) (m.withInput i)
        generalize (Field.offers targets (Field.ofLine s)).forM offer _ = result at hend
        cases hend with
        | all haccepts hstore => exact .received hfields hlength haccepts hstore
        | @upTo done later o store hoffers hdone ho hstore =>
            have hmem : o ∈ Field.offers targets (Field.ofLine s) := by
              rw [hoffers]
              simp
            exact .refused hfields hlength hoffers hdone ho hstore rfl (Field.span_refusal hmem _)
      · rw [if_neg hlength]
        exact .miscounted hfields hlength

namespace ScanEnds

variable {m : Machine Input σ} {targets : List Name} {span : Span}
  {result : EStateM.Result Stop (Machine Input σ) Unit}

/-- A SCAN writes nothing. -/
theorem sink (h : ScanEnds m targets span result) : (final result).sink = m.sink := by
  cases h <;> rfl

/-- A SCAN takes one line, if there is one, however it ends. -/
theorem input (h : ScanEnds m targets span result) :
    m.input.unread = [] ∧ (final result).input = m.input ∨
      ∃ line, m.input.FirstLine line (final result).input := by
  cases h with
  | ended hinput => exact Or.inl ⟨hinput, rfl⟩
  | unreadable hline _ => exact Or.inr ⟨_, hline⟩
  | miscounted hfields _ =>
      obtain ⟨line, s, hline, -⟩ := hfields
      exact Or.inr ⟨line, hline⟩
  | received hfields _ _ _ =>
      obtain ⟨line, s, hline, -⟩ := hfields
      exact Or.inr ⟨line, hline⟩
  | refused hfields _ _ _ _ _ _ _ =>
      obtain ⟨line, s, hline, -⟩ := hfields
      exact Or.inr ⟨line, hline⟩

end ScanEnds

end Run

/-- **What a SCAN does**, from any state and with any targets.  It writes nothing, and it takes
one line off the input if there is one, also when it fails.  Without a line, with one that is
not text, and with the wrong number of fields it fails at its own place and changes no
variable.  Otherwise every target takes the value of its field, or the first one that does
not is where it fails, and just the targets before it have taken theirs. -/
theorem Stmt.exec_scan_ends {σ : Type} [ByteSink σ] (fuel : Nat) (targets : List Name)
    (span : Span) (m : Machine Input σ) :
    (Run.final ((Stmt.scan targets span).exec fuel m)).sink = m.sink ∧
      (m.input.unread = [] ∧
          (Run.final ((Stmt.scan targets span).exec fuel m)).input = m.input ∨
        ∃ line, m.input.FirstLine line
          (Run.final ((Stmt.scan targets span).exec fuel m)).input) ∧
      Run.ScanEnds m targets span ((Stmt.scan targets span).exec fuel m) := by
  have hends : Run.ScanEnds m targets span ((Stmt.scan targets span).exec fuel m) := by
    rw [Stmt.exec]
    exact Run.scan_ends targets span m
  exact ⟨hends.sink, hends.input, hends⟩

end Pseudocode
