import ArrayEquations.Proofs.ContractionPairs
import ArrayEquations.Proofs.Permutation
import ArrayEquations.Proofs.WellFormed

/-!
# ArrayEquations — shape rules with every access checked

A library may not read past the end of a list, write there, or take a larger number from a smaller
one. Where the library reads an item of a shape, of a list of axes or of a list of operands without
asking whether it is there, the rules of this module ask, and have no result at all if it is not.
They have the results of the shape rules for all operands: a shape, or one of the library's errors.

## Main definitions

* `Checked` — a computation that has no result if an access fails.
* `Checked.minus?`, `Checked.upTo?`, `Checked.replace?`, `Checked.fill?` — the accesses, besides
  the reading of an item.
* `Checked.Matches` — every access succeeds, and the result is the one given.
* `Checked.broadcast`, `Checked.checkBroadcast`, `Checked.resultShape` — the rules.

## Main results

* `Checked.matches_broadcast`, `Checked.matches_checkBroadcast`, `Checked.matches_resultShape` —
  no access of the shape rules fails.
-/

namespace ArrayEquations

/-- A computation that ends with a value or an error, unless an access fails. -/
abbrev Checked (ε : Type) := ExceptT ε Option

namespace Checked

/-! ## Accesses -/

section Accesses

variable {α : Type}

/-- The item at a position, unless the list has no such position. -/
abbrev item? {m : Type → Type} [MonadLiftT Option m] (items : List α) (k : Nat) : m α :=
  liftM (items[k]? : Option α)

/-- The difference of two numbers, unless it would be negative. -/
def minus? (a b : Nat) : Option Nat := if b ≤ a then some (a - b) else none

/-- The first items of a list, unless it has fewer. -/
def upTo? (items : List α) (n : Nat) : Option (List α) :=
  if n ≤ items.length then some (items.take n) else none

/-- The list with another item at a position, unless it has no such position. -/
def replace? (items : List α) (k : Nat) (a : α) : Option (List α) :=
  if k < items.length then some (items.set k a) else none

/-- A list of the length given, written to at the positions of a list of entries. -/
def fill? (n : Nat) (a : α) (entries : List (Nat × α)) : Option (List α) :=
  entries.foldlM (fun items (k, b) => replace? items k b) (List.replicate n a)

theorem minus?_of_le {a b : Nat} (h : b ≤ a) : minus? a b = some (a - b) := if_pos h

theorem upTo?_append (before after : List α) :
    upTo? (before ++ after) before.length = some before := by
  rw [upTo?, if_pos (by simp), List.take_left]

/-- What a list holds that was written to: at each position the last entry for it. -/
theorem fill?_eq {n : Nat} (a : α) {entries : List (Nat × α)} (h : ∀ e ∈ entries, e.1 < n) :
    fill? n a entries = some ((List.range n).map fun k => (entries.reverse.lookup k).getD a) := by
  induction entries using List.reverseRecOn with
  | nil =>
    show some (List.replicate n a) = _
    simp [List.map_const']
  | append_singleton entries e ih =>
    obtain ⟨k, b⟩ := e
    have hBefore := ih fun e he => h e (List.mem_append_left _ he)
    have hk : k < n := h (k, b) (by simp)
    rw [fill?] at hBefore ⊢
    rw [List.foldlM_append, hBefore]
    show (replace? _ k b).bind pure = _
    rw [replace?, if_pos (by simpa using hk)]
    refine congrArg some (List.ext_getElem (by simp) ?_)
    intro i _ _
    rw [List.getElem_set]
    -- The entry written last is the one that is found first.
    by_cases hi : k = i
    · simp [hi]
    · simp [hi, List.lookup_cons, show (i == k) = false by simpa using Ne.symm hi]

end Accesses

/-! ## Results -/

section Results

variable {ε α β : Type} {c : Checked ε α} {e : Except ε α}

/-- Every access of the computation succeeds, and it ends as given. -/
def Matches (c : Checked ε α) (e : Except ε α) : Prop := c.run = some e

theorem matches_pure (a : α) : Matches (pure a : Checked ε α) (.ok a) := rfl

theorem matches_throw (error : ε) : Matches (throw error : Checked ε α) (.error error) := rfl

theorem matches_throw_bind (error : ε) (f : α → Checked ε β) :
    Matches ((throw error : Checked ε α) >>= f) (.error error) := rfl

/-- A computation without accesses. -/
theorem matches_lift (e : Except ε α) : Matches (liftM e : Checked ε α) e := rfl

/-- The errors of a computation read in another way. -/
theorem Matches.adapt {ε' : Type} (h : Matches c e) (f : ε → ε') :
    Matches (c.adapt f) (e.mapError f) := by
  show Except.mapError f <$> c.run = _
  rw [h]
  rfl

/-- One computation after the other. -/
theorem Matches.bind {f : α → Checked ε β} {g : α → Except ε β} (h : Matches c e)
    (hNext : ∀ a, e = .ok a → Matches (f a) (g a)) : Matches (c >>= f) (e >>= g) := by
  unfold Matches at h ⊢
  rw [ExceptT.run_bind, h]
  cases e with
  | error error => rfl
  | ok a => exact hNext a rfl

/-- An access that succeeds, and what is done with its result. -/
theorem matches_access {o : Option α} {a : α} {f : α → Checked ε β} {e : Except ε β}
    (hAccess : o = some a) (hNext : Matches (f a) e) : Matches (liftM o >>= f) e := by
  subst hAccess
  exact hNext

theorem matches_accessed {o : Option α} {a : α} (hAccess : o = some a) :
    Matches (liftM o : Checked ε α) (.ok a) := by
  subst hAccess
  rfl

theorem matches_mapM {f : α → Checked ε β} {g : α → Except ε β} {as : List α}
    (h : ∀ a ∈ as, Matches (f a) (g a)) : Matches (as.mapM f) (as.mapM g) := by
  induction as with
  | nil => rfl
  | cons a as ih =>
    rw [List.mapM_cons, List.mapM_cons]
    refine (h a List.mem_cons_self).bind fun b _ => ?_
    refine (ih fun a' ha' => h a' (List.mem_cons_of_mem _ ha')).bind fun bs _ => ?_
    exact matches_pure _

theorem matches_foldlM {f : β → α → Checked ε β} {g : β → α → Except ε β} {as : List α} {b : β}
    (h : ∀ a ∈ as, ∀ b, Matches (f b a) (g b a)) : Matches (as.foldlM f b) (as.foldlM g b) := by
  induction as generalizing b with
  | nil => rfl
  | cons a as ih =>
    rw [List.foldlM_cons, List.foldlM_cons]
    refine (h a List.mem_cons_self b).bind fun b' _ => ?_
    exact ih fun a' ha' => h a' (List.mem_cons_of_mem _ ha')

end Results

/-! ## Lists -/

section Lists

variable {α β σ : Type}

/-- The items that a test keeps, each as it says. -/
def collect? (test : α → Option (Option β)) (as : List α) : Option (List β) := do
  let found ← as.mapM test
  return found.filterMap id

theorem mapM_eq_some {f : α → Option β} {g : α → β} {as : List α}
    (h : ∀ a ∈ as, f a = some (g a)) : as.mapM f = some (as.map g) := by
  induction as with
  | nil => rfl
  | cons a as ih =>
    rw [List.mapM_cons, h a List.mem_cons_self, ih fun b hb => h b (List.mem_cons_of_mem _ hb)]
    rfl

theorem anyM_eq_some {p : α → Option Bool} {p' : α → Bool} {as : List α}
    (h : ∀ a ∈ as, p a = some (p' a)) : as.anyM p = some (as.any p') := by
  induction as with
  | nil => rfl
  | cons a as ih =>
    rw [List.anyM, h a List.mem_cons_self]
    show (match p' a with | true => some true | false => as.anyM p) = _
    rw [ih fun a' ha' => h a' (List.mem_cons_of_mem _ ha'), List.any_cons]
    cases p' a <;> rfl

theorem foldlM_eq_some {f : σ → α → Option σ} {f' : σ → α → σ} {as : List α} {s : σ}
    (h : ∀ a ∈ as, ∀ s, f s a = some (f' s a)) : as.foldlM f s = some (as.foldl f' s) := by
  induction as generalizing s with
  | nil => rfl
  | cons a as ih =>
    rw [List.foldlM_cons, h a List.mem_cons_self]
    exact ih fun a' ha' => h a' (List.mem_cons_of_mem _ ha')

theorem collect?_eq {test : α → Option (Option β)} {p : α → Bool} {f : α → β} {as : List α}
    (h : ∀ a ∈ as, test a = some (if p a then some (f a) else none)) :
    collect? test as = some ((as.filter p).map f) := by
  rw [collect?, mapM_eq_some h]
  show some _ = some _
  rw [List.filterMap_map]
  congr 1
  clear h
  induction as with
  | nil => rfl
  | cons a as ih => cases hp : p a <;> simp [hp, ← ih]

end Lists

/-! ## Extents -/

/-- The extents of several axes. -/
def extents? (s : Shape) (axes : List Nat) : Option (List Nat) := axes.mapM (item? s)

/-- The extent of an axis counted from the end, beginning with one. -/
def fromEnd? (s : Shape) (k : Nat) : Option Nat :=
  if s.rank < k then some 1
  else do
    let axis ← minus? s.rank k
    item? s axis

theorem getElem?_eq_extent {s : Shape} {axis : Nat} (h : axis < s.rank) :
    s[axis]? = some (s.extent axis) := by
  rw [Shape.extent, List.getD_eq_getElem?_getD, List.getElem?_eq_getElem h]
  rfl

theorem extents?_eq {s : Shape} {axes : List Nat} (h : ∀ axis ∈ axes, axis < s.rank) :
    extents? s axes = some (axes.map s.extent) :=
  mapM_eq_some fun axis hAxis => getElem?_eq_extent (h axis hAxis)

theorem fromEnd?_succ (s : Shape) (k : Nat) : fromEnd? s (k + 1) = some (s.trailing k) := by
  unfold fromEnd?
  split
  · rename_i hRank
    rw [Shape.trailing_of_rank_le (Nat.lt_succ_iff.mp hRank)]
  · -- The axis is there, so its distance from the end is no more than the rank.
    rename_i hRank
    have hk : k < s.rank := by omega
    rw [minus?_of_le hk, Shape.trailing_eq_extent hk]
    show s[s.rank - (k + 1)]? = _
    rw [getElem?_eq_extent (by omega)]
    congr 2
    omega

/-! ## Broadcasting -/

/-- The common shape of two operands, axis after axis. -/
def broadcast (a b : Shape) : Checked ShapeError Shape :=
  (List.range (max a.rank b.rank)).mapM fun axis => do
    let k ← minus? (max a.rank b.rank) axis
    let x ← fromEnd? a k
    let y ← fromEnd? b k
    match commonExtent? x y with
    | some extent => return extent
    | none => throw (.incompatible a b)

/-- **No access of a broadcast fails.** -/
theorem matches_broadcast (a b : Shape) : Matches (broadcast a b) (a.broadcast b) := by
  let rank := max a.rank b.rank
  -- The axes from the end are those from the beginning in the other order.
  let common (axis : Nat) : Option Nat :=
    commonExtent? (a.trailing (rank - 1 - axis)) (b.trailing (rank - 1 - axis))
  have hSteps : Matches (broadcast a b) ((List.range rank).mapM fun axis =>
      match common axis with
      | some extent => .ok extent
      | none => .error (.incompatible a b)) := by
    apply matches_mapM
    intro axis hAxis
    have hLt : axis < rank := List.mem_range.mp hAxis
    have hFromEnd : rank - axis = rank - 1 - axis + 1 := by omega
    refine matches_access (minus?_of_le (Nat.le_of_lt hLt)) ?_
    show Matches (liftM (fromEnd? a (rank - axis)) >>= _) _
    rw [hFromEnd]
    refine matches_access (fromEnd?_succ a _) (matches_access (fromEnd?_succ b _) ?_)
    show Matches (match common axis with | some extent => _ | none => _) _
    cases common axis with
    | some extent => exact matches_pure extent
    | none => exact matches_throw _
  suffices hSame : ((List.range rank).mapM fun axis =>
      match common axis with
      | some extent => Except.ok extent
      | none => .error (.incompatible a b)) = a.broadcast b from hSame ▸ hSteps
  cases hBroadcast : a.broadcast b with
  | ok out =>
    obtain ⟨hRank, hCommon⟩ := Shape.broadcast_eq_ok.mp hBroadcast
    have hAxes : List.range rank = out.axes := by rw [Shape.axes, hRank]
    rw [← out.map_extent_axes, ← hAxes]
    apply mapM_eq_ok
    intro axis hAxis
    have hLt : axis < out.rank := hRank ▸ List.mem_range.mp hAxis
    have hExtent : common axis = some (out.extent axis) := by
      show commonExtent? _ _ = _
      rw [hCommon, Shape.trailing_eq_extent (by omega)]
      congr 2
      omega
    rw [hExtent]
  | error e =>
    -- If every two extents had a common one, the shapes would have a common shape.
    obtain ⟨axis, hAxis, hNone⟩ : ∃ axis ∈ List.range rank, common axis = none := by
      by_contra hAll
      push Not at hAll
      obtain ⟨out, hOk⟩ := Shape.exists_broadcast_of_extents (a := a) (b := b) fun k => by
        by_cases hk : k < rank
        · have hCommon := hAll (rank - 1 - k) (List.mem_range.mpr (by omega))
          rw [show common (rank - 1 - k) = commonExtent? (a.trailing k) (b.trailing k) by
            show commonExtent? _ _ = _
            rw [show rank - 1 - (rank - 1 - k) = k by omega]] at hCommon
          exact Option.ne_none_iff_exists'.mp hCommon
        · rw [Shape.trailing_of_rank_le (by omega), Shape.trailing_of_rank_le (by omega)]
          exact ⟨1, rfl⟩
      rw [hOk] at hBroadcast
      exact absurd hBroadcast (by simp)
    rw [Shape.eq_incompatible hBroadcast]
    exact mapM_eq_error hAxis (by rw [hNone]) fun axis' e' h => by
      split at h
      · exact absurd h (by simp)
      · exact (Except.error.inj h).symm

/-! ## Lists of axes -/

/-- Checks one axis of a list, which stands at position `k`. -/
def checkAxisAt (operation : String) (rank : Nat) (axes : List Nat) (axis k : Nat) :
    Checked ShapeError Unit :=
  if rank ≤ axis then throw (.axisOutOfRange operation axis rank)
  else do
    let before ← upTo? axes k
    if before.contains axis then throw (.axisRepeated operation axis) else pure ()

/-- Whether a list names axes below `rank`, each at most once. -/
def checkAxes (operation : String) (rank : Nat) (axes : List Nat) : Checked ShapeError Unit :=
  axes.zipIdx.forM fun (axis, k) => checkAxisAt operation rank axes axis k

/-- Whether paired axes have equal extents. -/
def checkExtents (lhs rhs : Shape) (paired : List (Nat × Nat)) : Checked ShapeError Unit :=
  paired.forM fun (l, r) => do
    let x ← item? lhs l
    let y ← item? rhs r
    if x = y then pure () else throw (.extentMismatch l r lhs rhs)

theorem matches_checkAxes (operation : String) (rank : Nat) (axes : List Nat) :
    Matches (checkAxes operation rank axes) (ArrayEquations.checkAxes operation rank axes) := by
  suffices h : ∀ after before, axes = before ++ after →
      Matches ((after.zipIdx before.length).forM fun (axis, k) =>
        checkAxisAt operation rank axes axis k)
        (checkAxesFrom operation rank before.reverse after) from h axes [] rfl
  intro after
  induction after with
  | nil => exact fun _ _ => matches_pure ()
  | cons axis after ih =>
    intro before hSplit
    -- The axes before this one are those that were checked.
    have hLater := ih (before ++ [axis]) (by simp [hSplit])
    rw [List.length_append, List.length_singleton, List.reverse_append] at hLater
    rw [checkAxesFrom]
    show Matches (checkAxisAt operation rank axes axis before.length >>= fun _ => _) _
    unfold checkAxisAt
    by_cases hRank : rank ≤ axis
    · rw [if_pos hRank, if_pos hRank]
      exact matches_throw_bind _ _
    · rw [if_neg hRank, if_neg hRank, bind_assoc]
      refine matches_access (hSplit ▸ upTo?_append before (axis :: after)) ?_
      rw [List.contains_reverse]
      cases before.contains axis with
      | true => exact matches_throw_bind _ _
      | false => exact hLater

theorem matches_checkExtents {lhs rhs : Shape} {paired : List (Nat × Nat)}
    (h : ∀ x ∈ paired, x.1 < lhs.rank ∧ x.2 < rhs.rank) :
    Matches (checkExtents lhs rhs paired) (ArrayEquations.checkExtents lhs rhs paired) := by
  induction paired with
  | nil => exact matches_pure ()
  | cons x paired ih =>
    obtain ⟨l, r⟩ := x
    obtain ⟨hl, hr⟩ := h (l, r) List.mem_cons_self
    have hLater := ih fun x hx => h x (List.mem_cons_of_mem _ hx)
    rw [ArrayEquations.checkExtents]
    -- The loop reads both extents of the first pair, and then runs for the pairs behind it.
    show Matches ((do
      let x ← item? lhs l
      let y ← item? rhs r
      if x = y then pure () else throw (.extentMismatch l r lhs rhs) : Checked ShapeError Unit) >>=
        fun _ => checkExtents lhs rhs paired) _
    rw [bind_assoc]
    refine matches_access (getElem?_eq_extent hl) ?_
    rw [bind_assoc]
    refine matches_access (getElem?_eq_extent hr) ?_
    split
    · exact hLater
    · exact matches_throw_bind _ _

/-! ## Result shapes -/

/-- The shape of a contraction. -/
def contractionShape (axes : ContractionAxes) (lhs rhs : Shape) : Checked ShapeError Shape :=
  if axes.lhsContract.length ≠ axes.rhsContract.length ||
      axes.lhsBatch.length ≠ axes.rhsBatch.length then
    throw .axisListsDiffer
  else do
    let lhsAxes := axes.lhsContract ++ axes.lhsBatch
    let rhsAxes := axes.rhsContract ++ axes.rhsBatch
    checkAxes "dot_general" lhs.rank lhsAxes
    checkAxes "dot_general" rhs.rank rhsAxes
    checkExtents lhs rhs (lhsAxes.zip rhsAxes)
    let batch ← extents? lhs axes.lhsBatch
    let lhsKept ← extents? lhs (axes.lhsFree lhs.rank)
    let rhsKept ← extents? rhs (axes.rhsFree rhs.rank)
    return batch ++ lhsKept ++ rhsKept

/-- The shape of a sum over axes. -/
def sumShape (axes : List Nat) (operand : Shape) : Checked ShapeError Shape := do
  checkAxes "reduce_sum" operand.rank axes
  extents? operand (operand.axes.filter fun a => !axes.contains a)

/-- The shape of a transposition. -/
def transposeShape (permutation : List Nat) (operand : Shape) : Checked ShapeError Shape :=
  if permutation.length ≠ operand.rank then
    throw (.permutationLength permutation operand.rank)
  else do
    checkAxes "transpose" operand.rank permutation
    extents? operand permutation

/-- Applies a rule for one operand. -/
def onOne (op : Operation) (rule : Shape → Checked ShapeError Shape) (operands : List Shape) :
    Checked ShapeError Shape :=
  if operands.length = 1 then do
    let a ← item? operands 0
    rule a
  else throw (.operandCount op.name 1 operands.length)

/-- Applies a rule for two operands. -/
def onTwo (op : Operation) (rule : Shape → Shape → Checked ShapeError Shape)
    (operands : List Shape) : Checked ShapeError Shape :=
  if operands.length = 2 then do
    let a ← item? operands 0
    let b ← item? operands 1
    rule a b
  else throw (.operandCount op.name 2 operands.length)

/-- The shape of an operation's result, where it follows from the operands. -/
def resultShape (op : Operation) (operands : List Shape) : Checked ShapeError Shape :=
  match op with
  | .arith _ | .indicator _ | .accumulate => onTwo op broadcast operands
  | .neg | .call _ | .cast _ => onOne op pure operands
  | .contract axes => onTwo op (contractionShape axes) operands
  | .reduceSum axes => onOne op (sumShape axes) operands
  | .transpose permutation => onOne op (transposeShape permutation) operands
  | .broadcast _ | .reshape => throw (.explicitShapeNeeded op.name)
  | .foreign _ => pure (operands.headD [])

theorem matches_contractionShape (axes : ContractionAxes) (lhs rhs : Shape) :
    Matches (contractionShape axes lhs rhs) (axes.resultShape lhs rhs) := by
  unfold contractionShape ContractionAxes.resultShape
  split
  · exact matches_throw _
  · refine (matches_checkAxes _ _ _).bind fun _ hLhs => ?_
    refine (matches_checkAxes _ _ _).bind fun _ hRhs => ?_
    obtain ⟨hLhs, -⟩ := checkAxes_eq_ok.mp hLhs
    obtain ⟨hRhs, -⟩ := checkAxes_eq_ok.mp hRhs
    have hPaired : ∀ x ∈ (axes.lhsContract ++ axes.lhsBatch).zip
        (axes.rhsContract ++ axes.rhsBatch), x.1 < lhs.rank ∧ x.2 < rhs.rank :=
      fun x hx => ⟨hLhs _ (List.of_mem_zip hx).1, hRhs _ (List.of_mem_zip hx).2⟩
    refine (matches_checkExtents hPaired).bind fun _ _ => ?_
    -- Only now are the extents of the result read.
    refine matches_access (extents?_eq fun a ha => hLhs a (List.mem_append_right _ ha)) ?_
    refine matches_access (extents?_eq fun a ha => (mem_freeAxes.mp ha).1) ?_
    exact matches_access (extents?_eq fun a ha => (mem_freeAxes.mp ha).1) (matches_pure _)

theorem matches_sumShape (axes : List Nat) (operand : Shape) :
    Matches (sumShape axes operand) (ArrayEquations.sumShape axes operand) := by
  unfold sumShape ArrayEquations.sumShape
  refine (matches_checkAxes _ _ _).bind fun _ _ => ?_
  have hKept : ∀ a ∈ operand.axes.filter fun a => !axes.contains a, a < operand.rank :=
    fun a ha => List.mem_range.mp (List.mem_of_mem_filter ha)
  exact matches_accessed (extents?_eq hKept)

theorem matches_transposeShape (permutation : List Nat) (operand : Shape) :
    Matches (transposeShape permutation operand)
      (ArrayEquations.transposeShape permutation operand) := by
  unfold transposeShape ArrayEquations.transposeShape
  split
  · exact matches_throw _
  · refine (matches_checkAxes _ _ _).bind fun _ hAxes => ?_
    obtain ⟨hLt, -⟩ := checkAxes_eq_ok.mp hAxes
    exact matches_accessed (extents?_eq hLt)

theorem matches_onOne {op : Operation} {rule : Shape → Checked ShapeError Shape}
    {rule' : Shape → Except ShapeError Shape} (h : ∀ a, Matches (rule a) (rule' a))
    (operands : List Shape) : Matches (onOne op rule operands) (op.onOne rule' operands) := by
  match operands with
  | [a] => exact h a
  | [] | _ :: _ :: _ => exact matches_throw _

theorem matches_onTwo {op : Operation} {rule : Shape → Shape → Checked ShapeError Shape}
    {rule' : Shape → Shape → Except ShapeError Shape} (h : ∀ a b, Matches (rule a b) (rule' a b))
    (operands : List Shape) : Matches (onTwo op rule operands) (op.onTwo rule' operands) := by
  match operands with
  | [a, b] => exact h a b
  | [] | [_] | _ :: _ :: _ :: _ => exact matches_throw _

/-- **No access of the rule for a result shape fails**, whatever the operands are. -/
theorem matches_resultShape (op : Operation) (operands : List Shape) :
    Matches (resultShape op operands) (op.resultShape operands) := by
  cases op with
  | arith | indicator | accumulate => exact matches_onTwo matches_broadcast operands
  | neg | call | cast => exact matches_onOne matches_pure operands
  | contract axes => exact matches_onTwo (matches_contractionShape axes) operands
  | reduceSum axes => exact matches_onOne (matches_sumShape axes) operands
  | transpose permutation => exact matches_onOne (matches_transposeShape permutation) operands
  | broadcast | reshape => exact matches_throw _
  | foreign => exact matches_pure _

/-! ## Broadcasts along given axes -/

/-- Whether the axis at position `k` does not exceed the one before it. -/
def decreases? (dims : List Nat) (d k : Nat) : Option Bool :=
  if k = 0 then some false
  else do
    let before ← minus? k 1
    let previous ← item? dims before
    return d ≤ previous

/-- Checks one axis of a broadcast, which stands at position `k`. -/
def checkBroadcastAt (operand : Shape) (dims : List Nat) (target : Shape) (d k : Nat) :
    Checked ShapeError Unit := do
  let decreases ← decreases? dims d k
  if target.rank ≤ d || decreases then throw (.broadcastAxes dims target)
  else do
    let extent ← item? operand k
    if extent = 1 then pure ()
    else do
      let stretched ← item? target d
      if extent = stretched then pure () else throw (.notBroadcastable operand target)

/-- Whether the operand stretches to the target when its axis `k` becomes axis `dims[k]`. -/
def checkBroadcast (operand : Shape) (dims : List Nat) (target : Shape) :
    Checked ShapeError Unit :=
  if dims.length ≠ operand.rank then throw (.broadcastAxisCount dims.length operand.rank)
  else dims.zipIdx.forM fun (d, k) => checkBroadcastAt operand dims target d k

/-- The axes of a result that an operand takes when their last axes are aligned. -/
def trailingDims (rank outRank : Nat) : Option (List Nat) := do
  let start ← minus? outRank rank
  return List.range' start rank

theorem decreases?_append (before after : List Nat) (d : Nat) :
    decreases? (before ++ after) d before.length = some (before.getLast?.any (d ≤ ·)) := by
  cases before using List.reverseRecOn with
  | nil => rfl
  | append_singleton before previous =>
    rw [decreases?, if_neg (by simp), minus?_of_le (by simp)]
    simp

theorem matches_checkBroadcast (operand : Shape) (dims : List Nat) (target : Shape) :
    Matches (checkBroadcast operand dims target) (operand.checkBroadcast dims target) := by
  unfold checkBroadcast Shape.checkBroadcast
  split
  · exact matches_throw _
  · rename_i hLength
    have hLength : dims.length = operand.length := by simpa [Shape.rank] using hLength
    -- The checked loop counts positions and looks one back; the other one carries the axis before
    -- along.
    suffices h : ∀ after before, dims = before ++ after →
        Matches ((after.zipIdx before.length).forM fun (d, k) =>
          checkBroadcastAt operand dims target d k)
          (Shape.checkBroadcastFrom operand target dims before.getLast?
            ((operand.drop before.length).zip after)) from h dims [] rfl
    intro after
    induction after with
    | nil =>
      intro before _
      rw [List.zip_nil_right]
      exact matches_pure ()
    | cons d after ih =>
      intro before hSplit
      have hk : before.length < operand.length := by
        rw [← hLength, hSplit]
        simp
      have hLater := ih (before ++ [d]) (by simp [hSplit])
      rw [List.length_append, List.length_singleton, List.getLast?_concat] at hLater
      rw [List.drop_eq_getElem_cons hk, List.zip_cons_cons, Shape.checkBroadcastFrom]
      show Matches (checkBroadcastAt operand dims target d before.length >>= fun _ => _) _
      unfold checkBroadcastAt
      rw [bind_assoc]
      refine matches_access (hSplit ▸ decreases?_append before (d :: after) d) ?_
      by_cases hAxis : (target.rank ≤ d || before.getLast?.any (d ≤ ·)) = true
      · rw [if_pos hAxis, if_pos hAxis]
        exact matches_throw_bind _ _
      · rw [if_neg hAxis, if_neg hAxis, bind_assoc]
        have hd : d < target.rank := by
          simp only [Bool.or_eq_true, decide_eq_true_eq, not_or] at hAxis
          omega
        refine matches_access (List.getElem?_eq_getElem hk) ?_
        by_cases hOne : operand[before.length] = 1
        · rw [if_pos hOne, if_neg (by simp [hOne])]
          exact hLater
        · rw [if_neg hOne, bind_assoc]
          refine matches_access (getElem?_eq_extent hd) ?_
          by_cases hSame : operand[before.length] = target.extent d
          · rw [if_pos hSame, if_neg (by simp [hSame])]
            exact hLater
          · rw [if_neg hSame, if_pos (by simp [hOne, hSame])]
            exact matches_throw_bind _ _

theorem trailingDims_eq {rank outRank : Nat} (h : rank ≤ outRank) :
    trailingDims rank outRank = some (ArrayEquations.trailingDims rank outRank) := by
  rw [trailingDims, minus?_of_le h]
  show some _ = _
  rw [List.range'_eq_map_range, ArrayEquations.trailingDims]

end Checked

end ArrayEquations
