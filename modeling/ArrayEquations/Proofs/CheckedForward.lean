import ArrayEquations.Derivative.Forward
import ArrayEquations.Proofs.CheckedRecorder

/-!
# ArrayEquations — forward differentiation with every access checked

A differentiation goes on recording and keeps a table with a slot for each value of the graph that
is differentiated. It reads and writes slots, and reads the operands of operations by their places
in the list, as many as the operation takes. In this module these accesses are checked as those of
a recording are. None fails, since the graph is regular and the table holds values of the recording.

## Main definitions

* `CheckedDifferentiating` — a differentiation that has no result if an access fails.
* `Checked.Conforms` — the checked action does what the action does, and keeps graphs regular.
* `Checked.slot?`, `Checked.store?` — the accesses to a table.
* `Checked.tangentOf`, `Checked.carryTangent`, `Checked.recordForward` — the tangents.

## Main results

* `Checked.conforms_carryTangent` — no access fails where a value's tangent is found.
* `Checked.conforms_recordForward` — none fails on the whole way.
-/

namespace ArrayEquations

/-- A differentiation that has no result if an access fails. -/
abbrev CheckedDifferentiating := ExceptT DerivativeError CheckedRecording

namespace Derivatives

/-- The table holds values of a graph with the number of values given. -/
def Within (d : Derivatives) (n : Nat) : Prop := ∀ v, ∀ t ∈ d v, t < n

variable {d : Derivatives} {n n' : Nat}

theorem within_none (n : Nat) : none.Within n := fun _ _ h => absurd h (by simp [none])

theorem Within.mono (h : d.Within n) (hn : n ≤ n') : d.Within n' :=
  fun v t ht => Nat.lt_of_lt_of_le (h v t ht) hn

theorem Within.set (h : d.Within n) {v t : ValueId} (ht : t < n) : (d.set v t).Within n := by
  intro w t' ht'
  unfold Derivatives.set at ht'
  split at ht'
  · obtain rfl := Option.some.inj ht'
    exact ht
  · exact h w t' ht'

end Derivatives

namespace Checked

variable {α β : Type} {r : Recorder}

/-! ## Checked differentiations -/

section Rules

/-- From the recorder given, no access of the checked differentiation fails, and it does what the
differentiation does; something holds of the result, if there is one. -/
def Conforms (c : CheckedDifferentiating α) (m : Differentiating α) (r : Recorder)
    (P : α → Nat → Prop) : Prop :=
  Agrees c.run m.run r fun e n => ∀ a, e = .ok a → P a n

variable {c : CheckedDifferentiating α} {m : Differentiating α} {P : α → Nat → Prop}
  {Q : β → Nat → Prop}

theorem conforms_pure {a : α} (h : P a r.graph.size) : Conforms (pure a) (pure a) r P := by
  apply agrees_pure
  rintro _ ⟨⟩
  exact h

theorem conforms_throw (e : DerivativeError) :
    Conforms (throw e : CheckedDifferentiating α) (throw e) r P := by
  apply agrees_pure
  rintro _ ⟨⟩

/-- A recording that finds a rule for everything. -/
theorem conforms_lift {c : CheckedRecording α} {m : Recording α} (h : Agrees c m r P) :
    Conforms (liftM c) (liftM m) r P := by
  show Agrees (Except.ok <$> c) (Except.ok <$> m) r _
  apply agrees_map h
  rintro a n ha _ ⟨⟩
  exact ha

/-- One differentiation after the other. -/
theorem Conforms.bind {d : α → CheckedDifferentiating β} {f : α → Differentiating β}
    (h : Conforms c m r P)
    (hNext : ∀ a r', r.graph.size ≤ r'.graph.size → P a r'.graph.size →
      Conforms (d a) (f a) r' Q) : Conforms (c >>= d) (m >>= f) r Q := by
  unfold Conforms
  rw [ExceptT.run_bind, ExceptT.run_bind]
  refine Agrees.bind h fun e r' hSize hResult => ?_
  cases e with
  | ok a => exact hNext a r' hSize (hResult a rfl)
  | error e => exact agrees_pure fun _ hEq => absurd hEq (by simp)

theorem conforms_access {o : Option α} {a : α} {d : α → CheckedDifferentiating β}
    {m : Differentiating β} (hAccess : o = some a) (hNext : Conforms (d a) m r Q) :
    Conforms (liftM o >>= d) m r Q := by
  subst hAccess
  exact hNext

theorem conforms_accessed {o : Option α} {a : α} (hAccess : o = some a) (h : P a r.graph.size) :
    Conforms (liftM o) (pure a) r P := by
  subst hAccess
  exact conforms_pure h

/-- Steps that keep what holds of the state, one after the other. -/
theorem conforms_foldlM {f : β → α → CheckedDifferentiating β} {g : β → α → Differentiating β}
    {as : List α} {b : β} (hStart : Q b r.graph.size)
    (hStep : ∀ a ∈ as, ∀ b r', r.graph.size ≤ r'.graph.size → Q b r'.graph.size →
      Conforms (f b a) (g b a) r' Q) : Conforms (as.foldlM f b) (as.foldlM g b) r Q := by
  induction as generalizing b r with
  | nil => exact conforms_pure hStart
  | cons a as ih =>
    rw [List.foldlM_cons, List.foldlM_cons]
    refine (hStep a List.mem_cons_self b r (Nat.le_refl _) hStart).bind fun b' r' hSize hb' => ?_
    refine ih hb' fun a' ha' b'' r'' hSize' => ?_
    exact hStep a' (List.mem_cons_of_mem _ ha') b'' r'' (Nat.le_trans hSize hSize')

theorem agrees_foldlM {f : β → α → CheckedRecording β} {g : β → α → Recording β}
    {as : List α} {b : β} (hStart : Q b r.graph.size)
    (hStep : ∀ a ∈ as, ∀ b r', r.graph.size ≤ r'.graph.size → Q b r'.graph.size →
      Agrees (f b a) (g b a) r' Q) : Agrees (as.foldlM f b) (as.foldlM g b) r Q := by
  induction as generalizing b r with
  | nil => exact agrees_pure hStart
  | cons a as ih =>
    rw [List.foldlM_cons, List.foldlM_cons]
    refine (hStep a List.mem_cons_self b r (Nat.le_refl _) hStart).bind fun b' r' hSize hb' => ?_
    refine ih hb' fun a' ha' b'' r'' hSize' => ?_
    exact hStep a' (List.mem_cons_of_mem _ ha') b'' r'' (Nat.le_trans hSize hSize')

theorem agrees_mapM {f : α → CheckedRecording β} {g : α → Recording β} {as : List α}
    (h : ∀ a ∈ as, ∀ r', r.graph.size ≤ r'.graph.size → Agrees (f a) (g a) r' fun _ _ => True) :
    Agrees (as.mapM f) (as.mapM g) r fun _ _ => True := by
  induction as generalizing r with
  | nil => exact agrees_pure trivial
  | cons a as ih =>
    rw [List.mapM_cons, List.mapM_cons]
    refine (h a List.mem_cons_self r (Nat.le_refl _)).bind fun b r' hSize _ => ?_
    refine (ih fun a' ha' r'' hSize' => ?_).bind fun bs _ _ _ => agrees_pure trivial
    exact h a' (List.mem_cons_of_mem _ ha') r'' (Nat.le_trans hSize hSize')

end Rules

/-! ## Tables -/

section Tables

/-- The slot of a value in a table with as many slots as given. -/
def slot? (n : Nat) (table : Derivatives) (v : ValueId) : Option (Option ValueId) :=
  if v < n then some (table v) else none

/-- The table with the slot of a value filled. -/
def store? (n : Nat) (table : Derivatives) (v t : ValueId) : Option Derivatives :=
  if v < n then some (table.set v t) else none

/-- The slots of several values. -/
def slots? (n : Nat) (table : Derivatives) (vs : List ValueId) : Option (List (Option ValueId)) :=
  vs.mapM (slot? n table)

variable {n : Nat} (table : Derivatives)

theorem slot?_eq {v : ValueId} (h : v < n) : slot? n table v = some (table v) := if_pos h

theorem store?_eq {v : ValueId} (h : v < n) (t : ValueId) :
    store? n table v t = some (table.set v t) := if_pos h

theorem slots?_eq {vs : List ValueId} (h : ∀ v ∈ vs, v < n) :
    slots? n table vs = some (vs.map table) :=
  mapM_eq_some fun v hv => slot?_eq table (h v hv)

/-- The quantity of a value, which is tagged as such; zero is a constant. -/
def quantityOf (kind : DerivativeKind) (n : Nat) (table : Derivatives) (v : ValueId) :
    CheckedRecording ValueId := do
  let t ←
    match ← slot? n table v with
    | some t => pure t
    | none => Recording.literal 0
  Recording.tag kind v t
  return t

/-- The quantities of values in order. -/
def quantities (kind : DerivativeKind) (n : Nat) (table : Derivatives) (vs : List ValueId) :
    CheckedRecording (List ValueId) :=
  vs.mapM (quantityOf kind n table)

theorem agrees_quantityOf {kind : DerivativeKind} {v : ValueId} (h : v < n) :
    Agrees (quantityOf kind n table v) (do
      let t ←
        match table v with
        | some t => pure t
        | none => Recording.literal 0
      Recording.tag kind v t
      return t) r fun _ _ => True := by
  unfold quantityOf
  refine agrees_access (slot?_eq table h) ?_
  have hTag (t : ValueId) {r : Recorder} : Agrees (do
      Recording.tag kind v t
      return t) (do
      Recording.tag kind v t
      return t) r fun _ _ => True :=
    (agrees_tag kind v t).bind fun _ _ _ _ => agrees_pure trivial
  cases table v with
  | some t => exact hTag t
  | none => exact (agrees_literal 0).bind fun t _ _ _ => hTag t

end Tables

/-! ## Quantities that may be zero -/

/-- Applies an action to a derivative quantity if there is one. -/
def through (d : Option ValueId) (f : ValueId → CheckedRecording ValueId) :
    CheckedRecording (Option ValueId) :=
  match d with
  | some v => some <$> f v
  | none => pure none

/-- Arithmetic with a constant on the right. -/
def arithRight (op : Arith) (a : ValueId) (x : Float) : CheckedRecording ValueId := do
  let c ← Recording.literal x
  arith op a c

/-- Arithmetic with a constant on the left. -/
def arithLeft (op : Arith) (x : Float) (b : ValueId) : CheckedRecording ValueId := do
  let c ← Recording.literal x
  arith op c b

/-- The derivative of `a ^ b` with respect to `a`. -/
def powerSlope (a b : ValueId) : CheckedRecording ValueId := do
  match ← Recording.literalOf? b with
  | some c =>
    if c - 1 == 1 then arithLeft .mul c a
    else
      let power ← arithRight .pow a (c - 1)
      arithLeft .mul c power
  | none =>
    let exponent ← arithRight .sub b 1
    let power ← arith .pow a exponent
    arith .mul b power

/-- The indicator of where a value is positive. -/
def positive (a : ValueId) : CheckedRecording ValueId := do
  let origin ← Recording.literal 0
  elementwise (.indicator .gt) a origin

/-- The quantity is a value of a graph with the number of values given, if it is not zero. -/
def Known (d : Option ValueId) (n : Nat) : Prop := ∀ v ∈ d, v < n

section Quantities

variable {a b : ValueId}

theorem known_none (n : Nat) : Known none n := fun _ h => absurd h (by simp)

theorem known_some {v : ValueId} {n : Nat} (h : v < n) : Known (some v) n := by
  rintro _ ⟨⟩
  exact h

theorem Known.mono {d : Option ValueId} {n n' : Nat} (h : Known d n) (hn : n ≤ n') : Known d n' :=
  fun v hv => Nat.lt_of_lt_of_le (h v hv) hn

/-- A quantity that is found. -/
theorem agrees_some {c : CheckedRecording ValueId} {m : Recording ValueId}
    (h : Agrees c m r (· < ·)) : Agrees (some <$> c) (some <$> m) r Known :=
  agrees_map h fun _ _ => known_some

theorem agrees_through {d : Option ValueId} {f : ValueId → CheckedRecording ValueId}
    {f' : ValueId → Recording ValueId} (hd : Known d r.graph.size)
    (h : ∀ v, v < r.graph.size → Agrees (f v) (f' v) r (· < ·)) :
    Agrees (through d f) (Recording.through d f') r Known := by
  cases d with
  | none => exact agrees_pure (known_none _)
  | some v => exact agrees_some (h v (hd v rfl))

theorem agrees_arithRight (op : Arith) (ha : a < r.graph.size) (x : Float) :
    Agrees (arithRight op a x) (Recording.arithRight op a x) r (· < ·) :=
  (agrees_literal x).bind fun _ _ hSize hc => agrees_arith op (Nat.lt_of_lt_of_le ha hSize) hc

theorem agrees_arithLeft (op : Arith) (x : Float) (hb : b < r.graph.size) :
    Agrees (arithLeft op x b) (Recording.arithLeft op x b) r (· < ·) :=
  (agrees_literal x).bind fun _ _ hSize hc => agrees_arith op hc (Nat.lt_of_lt_of_le hb hSize)

theorem agrees_powerSlope (ha : a < r.graph.size) (hb : b < r.graph.size) :
    Agrees (powerSlope a b) (Recording.powerSlope a b) r (· < ·) := by
  unfold powerSlope Recording.powerSlope
  apply agrees_literalOf?_bind
  cases r.graph.literal? b with
  | some c =>
    simp only
    split
    · exact agrees_arithLeft .mul c ha
    · refine (agrees_arithRight .pow ha _).bind fun power _ _ hPower => ?_
      exact agrees_arithLeft .mul c hPower
  | none =>
    refine (agrees_arithRight .sub hb 1).bind fun exponent _ hSize hExponent => ?_
    refine (agrees_arith .pow (Nat.lt_of_lt_of_le ha hSize) hExponent).bind
      fun power _ hSize' hPower => ?_
    exact agrees_arith .mul (Nat.lt_of_lt_of_le hb (Nat.le_trans hSize hSize')) hPower

theorem agrees_positive (ha : a < r.graph.size) :
    Agrees (positive a) (Recording.positive a) r (· < ·) :=
  (agrees_literal 0).bind fun _ _ hSize hOrigin =>
    agrees_elementwise rfl (by simp) (Nat.lt_of_lt_of_le ha hSize) hOrigin

end Quantities

/-! ## Tangents -/

namespace Forward

/-- The sum of two tangents. -/
def add (a b : Option ValueId) : CheckedRecording (Option ValueId) :=
  match a, b with
  | some a, some b => some <$> arith .add a b
  | a, none => pure a
  | none, b => pure b

/-- The difference of two tangents. -/
def sub (a b : Option ValueId) : CheckedRecording (Option ValueId) :=
  match a, b with
  | some a, some b => some <$> arith .sub a b
  | a, none => pure a
  | none, some b => some <$> neg b

/-- The sum of two contributions to a tangent. -/
def accumulate (a b : Option ValueId) : CheckedRecording (Option ValueId) :=
  match a, b with
  | some a, some b => some <$> elementwise .accumulate a b
  | a, none => pure a
  | none, b => pure b

/-- The tangent of a named function's result `out` at `a`, from the tangent `t` of `a`. -/
def callTangent (f : NamedFunction) (a out t : ValueId) : CheckedRecording ValueId :=
  match f with
  | .relu => do
    let slope ← positive a
    arith .mul slope t
  | .exp => arith .mul out t
  | .log => arith .div t a
  | .sin => do
    let slope ← call .cos a
    arith .mul slope t
  | .cos => do
    let slope ← call .sin a
    let product ← arith .mul slope t
    neg product
  | .tanh => do
    let square ← arithRight .pow out 2
    let slope ← arithLeft .sub 1 square
    arith .mul slope t
  | .sqrt => do
    let double ← arithLeft .mul 2 out
    arith .div t double

/-- The tangent of `a op b = out`, from the tangents of `a` and `b`. -/
def arithTangent (op : Arith) (a b out : ValueId) (ta tb : Option ValueId) :
    CheckedRecording (Option ValueId) :=
  match op with
  | .add => add ta tb
  | .sub => sub ta tb
  | .mul => do
    let l ← through ta fun t => arith .mul t b
    let r ← through tb fun t => arith .mul a t
    add l r
  | .div => do
    let l ← through ta fun t => arith .div t b
    let r ← through tb fun t => do
      let product ← arith .mul a t
      let square ← arithRight .pow b 2
      arith .div product square
    sub l r
  | .pow => do
    let l ← through ta fun t => do
      let slope ← powerSlope a b
      arith .mul slope t
    let r ← through tb fun t => do
      let log ← call .log a
      let slope ← arith .mul out log
      arith .mul slope t
    add l r

variable {a b out t : ValueId} {ta tb : Option ValueId}

theorem agrees_add (ha : Known ta r.graph.size) (hb : Known tb r.graph.size) :
    Agrees (add ta tb) (ArrayEquations.Forward.add ta tb) r Known := by
  match ta, tb with
  | some a, some b => exact agrees_some (agrees_arith .add (ha a rfl) (hb b rfl))
  | some a, none => exact agrees_pure ha
  | none, none => exact agrees_pure ha
  | none, some b => exact agrees_pure hb

theorem agrees_sub (ha : Known ta r.graph.size) (hb : Known tb r.graph.size) :
    Agrees (sub ta tb) (ArrayEquations.Forward.sub ta tb) r Known := by
  match ta, tb with
  | some a, some b => exact agrees_some (agrees_arith .sub (ha a rfl) (hb b rfl))
  | some a, none => exact agrees_pure ha
  | none, none => exact agrees_pure ha
  | none, some b => exact agrees_some (agrees_neg (hb b rfl))

theorem agrees_accumulate (ha : Known ta r.graph.size) (hb : Known tb r.graph.size) :
    Agrees (accumulate ta tb) (ArrayEquations.Forward.accumulate ta tb) r Known := by
  match ta, tb with
  | some a, some b => exact agrees_some (agrees_elementwise rfl (by simp) (ha a rfl) (hb b rfl))
  | some a, none => exact agrees_pure ha
  | none, none => exact agrees_pure ha
  | none, some b => exact agrees_pure hb

theorem agrees_callTangent (f : NamedFunction) (ha : a < r.graph.size) (ho : out < r.graph.size)
    (ht : t < r.graph.size) :
    Agrees (callTangent f a out t) (ArrayEquations.Forward.callTangent f a out t) r (· < ·) := by
  -- Handles that were known before an action are known after it, for the graph only grows.
  cases f with
  | relu =>
    refine (agrees_positive ha).bind fun slope _ hSize hSlope => ?_
    exact agrees_arith .mul hSlope (Nat.lt_of_lt_of_le ht hSize)
  | exp => exact agrees_arith .mul ho ht
  | log => exact agrees_arith .div ht ha
  | sin =>
    refine (agrees_call .cos ha).bind fun slope _ hSize hSlope => ?_
    exact agrees_arith .mul hSlope (Nat.lt_of_lt_of_le ht hSize)
  | cos =>
    refine (agrees_call .sin ha).bind fun slope _ hSize hSlope => ?_
    refine (agrees_arith .mul hSlope (Nat.lt_of_lt_of_le ht hSize)).bind fun product _ _ h => ?_
    exact agrees_neg h
  | tanh =>
    refine (agrees_arithRight .pow ho 2).bind fun square _ hSize hSquare => ?_
    refine (agrees_arithLeft .sub 1 hSquare).bind fun slope _ hSize' hSlope => ?_
    exact agrees_arith .mul hSlope (Nat.lt_of_lt_of_le ht (Nat.le_trans hSize hSize'))
  | sqrt =>
    refine (agrees_arithLeft .mul 2 ho).bind fun double _ hSize hDouble => ?_
    exact agrees_arith .div (Nat.lt_of_lt_of_le ht hSize) hDouble

/-- Both quotients and powers are found operand by operand; what is found for the first operand is
still there when the second one has been looked at. -/
theorem agrees_arithTangent (op : Arith) (ha : a < r.graph.size) (hb : b < r.graph.size)
    (ho : out < r.graph.size) (hta : Known ta r.graph.size) (htb : Known tb r.graph.size) :
    Agrees (arithTangent op a b out ta tb)
      (ArrayEquations.Forward.arithTangent op a b out ta tb) r Known := by
  cases op with
  | add => exact agrees_add hta htb
  | sub => exact agrees_sub hta htb
  | mul =>
    refine (agrees_through hta fun t ht => agrees_arith .mul ht hb).bind fun l r₁ hSize₁ hl => ?_
    have ha₁ := Nat.lt_of_lt_of_le ha hSize₁
    refine (agrees_through (htb.mono hSize₁) fun t ht => agrees_arith .mul ha₁ ht).bind
      fun r r₂ hSize₂ hr => ?_
    exact agrees_add (hl.mono hSize₂) hr
  | div =>
    refine (agrees_through hta fun t ht => agrees_arith .div ht hb).bind fun l r₁ hSize₁ hl => ?_
    have ha₁ := Nat.lt_of_lt_of_le ha hSize₁
    have hb₁ := Nat.lt_of_lt_of_le hb hSize₁
    refine Agrees.bind (agrees_through (htb.mono hSize₁) fun t ht => ?_) fun r r₂ hSize₂ hr =>
      agrees_sub (hl.mono hSize₂) hr
    refine (agrees_arith .mul ha₁ ht).bind fun product _ hSize hProduct => ?_
    refine (agrees_arithRight .pow (Nat.lt_of_lt_of_le hb₁ hSize) 2).bind
      fun square _ hSize' hSquare => ?_
    exact agrees_arith .div (Nat.lt_of_lt_of_le hProduct hSize') hSquare
  -- The left part multiplies by the slope of the power, the right part by its logarithm.
  | pow =>
    refine Agrees.bind (agrees_through hta fun t ht => ?_) fun l r₁ hSize₁ hl => ?_
    · refine (agrees_powerSlope ha hb).bind fun slope _ hSize hSlope => ?_
      exact agrees_arith .mul hSlope (Nat.lt_of_lt_of_le ht hSize)
    have ha₁ := Nat.lt_of_lt_of_le ha hSize₁
    have ho₁ := Nat.lt_of_lt_of_le ho hSize₁
    refine Agrees.bind (agrees_through (htb.mono hSize₁) fun t ht => ?_) fun r r₂ hSize₂ hr =>
      agrees_add (hl.mono hSize₂) hr
    refine (agrees_call .log ha₁).bind fun log _ hSize hLog => ?_
    refine (agrees_arith .mul (Nat.lt_of_lt_of_le ho₁ hSize) hLog).bind
      fun slope _ hSize' hSlope => ?_
    exact agrees_arith .mul hSlope (Nat.lt_of_lt_of_le ht (Nat.le_trans hSize hSize'))

end Forward

/-- The operand at a place with its tangent. -/
def operandAt? (n : Nat) (tangents : Derivatives) (operands : List ValueId) (k : Nat) :
    Option (ValueId × Option ValueId) := do
  let a ← item? operands k
  let t ← slot? n tangents a
  return (a, t)

/-- The tangent of the result `out` of an operation of a graph, or none where it is zero. -/
def tangentOf (g : Graph) (op : Operation) (operands : List ValueId) (out : ValueId)
    (tangents : Derivatives) : CheckedDifferentiating (Option ValueId) := do
  let known ← slots? g.size tangents operands
  if known.all (·.isNone) then return none
  match op with
  | .arith op => do
    let (a, ta) ← operandAt? g.size tangents operands 0
    let (b, tb) ← operandAt? g.size tangents operands 1
    Forward.arithTangent op a b out ta tb
  | .accumulate => do
    let (_, ta) ← operandAt? g.size tangents operands 0
    let (_, tb) ← operandAt? g.size tangents operands 1
    Forward.accumulate ta tb
  | .neg => do
    let (_, ta) ← operandAt? g.size tangents operands 0
    through ta neg
  | .call f => do
    let (a, ta) ← operandAt? g.size tangents operands 0
    through ta (Forward.callTangent f a out)
  | .indicator _ => return none
  | .contract axes => do
    let (a, ta) ← operandAt? g.size tangents operands 0
    let (b, tb) ← operandAt? g.size tangents operands 1
    let l ← through ta fun t => contract axes t b
    let r ← through tb fun t => contract axes a t
    Forward.add l r
  | .reduceSum axes => do
    let (_, ta) ← operandAt? g.size tangents operands 0
    through ta fun t => sum t axes
  | .broadcast dims => do
    let (_, ta) ← operandAt? g.size tangents operands 0
    let shape ← shape? g out
    through ta fun t => Recording.pushShaped (.broadcast dims) [t] shape
  | .transpose permutation => do
    let (_, ta) ← operandAt? g.size tangents operands 0
    through ta fun t => transpose t permutation
  | .reshape => do
    let (_, ta) ← operandAt? g.size tangents operands 0
    let shape ← shape? g out
    through ta fun t => Recording.reshape t shape
  | .cast dtype => do
    let (_, ta) ← operandAt? g.size tangents operands 0
    through ta fun t => cast t dtype
  | .foreign name => throw (.noRule name)

/-- Adds tangent inputs for the arguments given. -/
def seedTangents (n : Nat) (arguments : List ValueId) : CheckedRecording Derivatives :=
  arguments.foldlM (fun tangents a => do
    let t ← Recording.derivativeInput .tangent a
    store? n tangents a t) Derivatives.none

/-- Carries the tangents through one value of the graph. -/
def carryTangent (g : Graph) (tangents : Derivatives) (v : ValueId) :
    CheckedDifferentiating Derivatives := do
  match g.op? v with
  | none => return tangents
  | some (op, operands) =>
    match ← tangentOf g op operands v tangents with
    | none => return tangents
    | some t =>
      Recording.tag .tangent v t
      store? g.size tangents v t

/-- Records the tangents of a graph's outputs. -/
def recordForward (g : Graph) (arguments outputs : List ValueId) :
    CheckedDifferentiating (List ValueId) := do
  let seeds ← seedTangents g.size arguments
  let tangents ← g.ids.foldlM (carryTangent g) seeds
  return outputs ++ (← quantities .tangent g.size tangents outputs)

section Tangents

variable {g : Graph} {tangents : Derivatives}

theorem operandAt?_eq {n : Nat} {operands : List ValueId} {k : Nat} {a : ValueId}
    (hItem : operands[k]? = some a) (ha : a < n) :
    operandAt? n tangents operands k = some (a, tangents a) := by
  show (operands[k]?).bind (fun a => (slot? n tangents a).bind fun t => some (a, t)) = _
  rw [hItem, Option.bind_some, slot?_eq tangents ha]
  rfl

/-- The operation has its operands, and the values of the graph are still there. -/
theorem conforms_tangentOf {op : Operation} {operands : List ValueId} {out : ValueId}
    (hReads : op.Reads (operands.map g.shape)) (hLt : ∀ w ∈ operands, w < g.size)
    (hOut : out < g.size) (hGraph : g.size ≤ r.graph.size)
    (hTangents : tangents.Within r.graph.size) :
    Conforms (tangentOf g op operands out tangents)
      (ArrayEquations.tangentOf op operands out (g.shape out) tangents) r Known := by
  unfold tangentOf ArrayEquations.tangentOf
  refine conforms_access (slots?_eq tangents hLt) ?_
  have hAll : ((operands.map tangents).all fun t => t.isNone) =
      operands.all fun v => (tangents v).isNone := List.all_map
  rw [hAll]
  -- Without a tangent among those of the operands, the operands are not read.
  by_cases hNone : (operands.all fun v => (tangents v).isNone) = true
  · simp only [hNone, if_true]
    exact conforms_pure (known_none _)
  simp only [hNone]
  have hLater {v : ValueId} (hv : v < g.size) : v < r.graph.size := Nat.lt_of_lt_of_le hv hGraph
  cases op with
  | arith op =>
    obtain ⟨a, b, rfl, ha, hb⟩ := hReads.two rfl hLt
    refine conforms_access (operandAt?_eq rfl ha) (conforms_access (operandAt?_eq rfl hb) ?_)
    exact conforms_lift (Forward.agrees_arithTangent op (hLater ha) (hLater hb) (hLater hOut)
      (hTangents a) (hTangents b))
  | accumulate =>
    obtain ⟨a, b, rfl, ha, hb⟩ := hReads.two rfl hLt
    refine conforms_access (operandAt?_eq rfl ha) (conforms_access (operandAt?_eq rfl hb) ?_)
    exact conforms_lift (Forward.agrees_accumulate (hTangents a) (hTangents b))
  | neg =>
    obtain ⟨a, rfl, ha⟩ := hReads.one rfl hLt
    refine conforms_access (operandAt?_eq rfl ha) ?_
    exact conforms_lift (agrees_through (hTangents a) fun t ht => agrees_neg ht)
  | call f =>
    obtain ⟨a, rfl, ha⟩ := hReads.one rfl hLt
    refine conforms_access (operandAt?_eq rfl ha) ?_
    exact conforms_lift (agrees_through (hTangents a) fun t ht =>
      Forward.agrees_callTangent f (hLater ha) (hLater hOut) ht)
  | indicator => exact conforms_pure (known_none _)
  | contract axes =>
    obtain ⟨a, b, rfl, ha, hb⟩ := hReads.two rfl hLt
    refine conforms_access (operandAt?_eq rfl ha) (conforms_access (operandAt?_eq rfl hb) ?_)
    refine (conforms_lift (agrees_through (hTangents a) fun t ht =>
      agrees_contract axes ht (hLater hb))).bind fun l r₁ hSize₁ hl => ?_
    -- The second product is recorded behind the first one.
    have ha₁ := Nat.lt_of_lt_of_le (hLater ha) hSize₁
    refine (conforms_lift (agrees_through (hTangents.mono hSize₁ b) fun t ht =>
      agrees_contract axes ha₁ ht)).bind fun r r₂ hSize₂ hr => ?_
    exact conforms_lift (Forward.agrees_add (hl.mono hSize₂) hr)
  | reduceSum axes =>
    obtain ⟨a, rfl, ha⟩ := hReads.one rfl hLt
    refine conforms_access (operandAt?_eq rfl ha) ?_
    exact conforms_lift (agrees_through (hTangents a) fun t ht => agrees_sum ht axes)
  | broadcast dims =>
    obtain ⟨a, rfl, ha⟩ := hReads.one rfl hLt
    refine conforms_access (operandAt?_eq rfl ha) (conforms_access (shape?_eq hOut) ?_)
    exact conforms_lift (agrees_through (hTangents a) fun t ht => agrees_pushShaped_one rfl ht _)
  | transpose permutation =>
    obtain ⟨a, rfl, ha⟩ := hReads.one rfl hLt
    refine conforms_access (operandAt?_eq rfl ha) ?_
    exact conforms_lift (agrees_through (hTangents a) fun t ht => agrees_transpose ht permutation)
  | reshape =>
    obtain ⟨a, rfl, ha⟩ := hReads.one rfl hLt
    refine conforms_access (operandAt?_eq rfl ha) (conforms_access (shape?_eq hOut) ?_)
    exact conforms_lift (agrees_through (hTangents a) fun t ht => agrees_reshape ht _)
  | cast dtype =>
    obtain ⟨a, rfl, ha⟩ := hReads.one rfl hLt
    refine conforms_access (operandAt?_eq rfl ha) ?_
    exact conforms_lift (agrees_through (hTangents a) fun t ht => agrees_cast ht dtype)
  | «foreign» => exact conforms_throw _

theorem agrees_seedTangents {n : Nat} {arguments : List ValueId} (hLt : ∀ a ∈ arguments, a < n) :
    Agrees (seedTangents n arguments) (ArrayEquations.seedTangents arguments) r
      Derivatives.Within := by
  refine agrees_foldlM (Derivatives.within_none _) fun a ha tangents r₁ _ hTangents => ?_
  refine (agrees_derivativeInput .tangent a).bind fun t r₂ hSize ht => ?_
  exact agrees_accessed (store?_eq tangents (hLt a ha) t) ((hTangents.mono hSize).set ht)

/-- **No access fails where a value's tangent is found**, whatever the tangents found before are. -/
theorem conforms_carryTangent (hRegular : g.Regular) {v : ValueId} (hv : v < g.size)
    (hGraph : g.size ≤ r.graph.size) (hTangents : tangents.Within r.graph.size) :
    Conforms (carryTangent g tangents v) (ArrayEquations.carryTangent g tangents v) r
      Derivatives.Within := by
  unfold carryTangent ArrayEquations.carryTangent
  cases hOp : g.op? v with
  | none => exact conforms_pure hTangents
  | some found =>
    obtain ⟨op, operands⟩ := found
    have hGet := Graph.op?_eq_some hOp
    -- The slots of the operands are those of earlier values.
    have hLt : ∀ w ∈ operands, w < g.size := fun w hw =>
      Nat.lt_trans (hRegular.before hGet w hw) hv
    refine (conforms_tangentOf (hRegular.reads hGet) hLt hv hGraph hTangents).bind
      fun t r₁ hSize₁ ht => ?_
    -- A tangent that was found is tagged before it is stored.
    cases t with
    | none => exact conforms_pure (hTangents.mono hSize₁)
    | some t =>
      refine (conforms_lift (agrees_tag .tangent v t)).bind fun _ r₂ hSize₂ _ => ?_
      have hLater : tangents.Within r₂.graph.size := hTangents.mono (Nat.le_trans hSize₁ hSize₂)
      exact conforms_accessed (store?_eq tangents hv t)
        (hLater.set (Nat.lt_of_lt_of_le (ht t rfl) hSize₂))

/-- **No access fails on the whole way of the tangents** through a regular graph. -/
theorem conforms_recordForward (hRegular : g.Regular) {arguments outputs : List ValueId}
    (hArguments : ∀ a ∈ arguments, a < g.size) (hOutputs : ∀ o ∈ outputs, o < g.size)
    (hGraph : g.size ≤ r.graph.size) :
    Conforms (recordForward g arguments outputs)
      (ArrayEquations.recordForward g arguments outputs) r fun _ _ => True := by
  unfold recordForward ArrayEquations.recordForward
  -- Seeds first, then the values in order, then the tangents of the outputs.
  refine (conforms_lift (agrees_seedTangents hArguments)).bind fun seeds r₁ hSize₁ hSeeds => ?_
  refine Conforms.bind (conforms_foldlM hSeeds fun v hv tangents r₂ hSize₂ hTangents => ?_)
    fun tangents r₂ _ _ => ?_
  · have hLt : v < g.size := List.mem_range.mp hv
    exact conforms_carryTangent hRegular hLt
      (Nat.le_trans hGraph (Nat.le_trans hSize₁ hSize₂)) hTangents
  · refine (conforms_lift (agrees_mapM fun o ho _ _ => ?_)).bind
      fun found _ _ _ => conforms_pure trivial
    exact agrees_quantityOf tangents (hOutputs o ho)

end Tangents

end Checked

end ArrayEquations
