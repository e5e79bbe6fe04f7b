import Mathlib
import ArrayEquations.Proofs.CaptureSteps
import ArrayEquations.Proofs.WrittenScripts

/-!
# ArrayEquations — renaming the names of a function

The names that a function binds stand for values while its body is recorded, and nothing else is
made of them. So a function may be renamed inside: a capture that has a trace has the same one, with
the same numbers of values and the same bindings, whichever function it starts from.

The names are changed by a map that is injective on the names of the function. Then a scope and the
scope of the renamed body stand for the same values, name by name, and go on to do so when a line
binds another name, over one that was bound or not.

## Main definitions

* `Definition.map` — a function with other names inside and other places.
* `Definition.locals` — the names that a function binds or uses.
* `Script.renameIn` — a script in which one function is renamed inside.
* `SameSuccess` — two actions that have values together, and the same ones.

## Main results

* `sameSuccess_evaluate` — a renamed term, in a scope aligned with the given one.
* `sameSuccess_runBody` — a renamed body.
* `capture_renameIn` — captures of a script in which one function is renamed inside.
-/

namespace ArrayEquations.Script

/-! ## Renaming -/

section

variable (m : String → String) (place : Span → Span)

/-- A name with another spelling and place. -/
def Identifier.map (n : Identifier) : Identifier := ⟨m n.name, place n.span⟩

/-- A term with other names of values. The names of callees stay, and so do the names that values
get in the equations. -/
def Term.map : Term → Term
  | .number span x => .number (place span) x
  | .dims span ns => .dims (place span) ns
  | .var name => .var (name.map m place)
  | .neg span e => .neg (place span) e.map
  | .binary span op lhs rhs => .binary (place span) op lhs.map rhs.map
  | .call span callee arguments =>
    .call (place span) (callee.map id place) (arguments.map Term.map)
  | .named span value name dependsOn =>
    .named (place span) value.map (name.map id place)
      (dependsOn.map (List.map (Identifier.map m place)))

/-- A statement with other names of values. -/
def Statement.map : Statement → Statement
  | .bind span name value => .bind (place span) (name.map m place) (value.map m place)
  | .result span values => .result (place span) (values.map (Term.map m place))

/-- A parameter with another name. -/
def Parameter.map (p : Parameter) : Parameter := ⟨p.name.map m place, p.shape, place p.span⟩

/-- A function with other names of its parameters and values. -/
def Definition.map (d : Definition) : Definition :=
  ⟨d.name.map id place, d.parameters.map (Parameter.map m place),
    d.body.map (Statement.map m place), place d.span⟩

end

/-- The names of values that a term uses. -/
def Term.locals : Term → List String
  | .number _ _ | .dims _ _ => []
  | .var name => [name.name]
  | .neg _ e => e.locals
  | .binary _ _ lhs rhs => lhs.locals ++ rhs.locals
  | .call _ _ arguments => arguments.flatMap Term.locals
  | .named _ value _ dependsOn => value.locals ++ (dependsOn.getD []).map (·.name)

/-- The names of values that a statement binds or uses. -/
def Statement.locals : Statement → List String
  | .bind _ name value => name.name :: value.locals
  | .result _ values => values.flatMap Term.locals

/-- The names of values that a function binds or uses. -/
def Definition.locals (d : Definition) : List String :=
  d.parameterNames ++ d.body.flatMap Statement.locals

/-- A function in which names are changed by a map of its own, `σ` of its name. -/
def Definition.renamed (σ : String → String → String) (place : Span → Span) (d : Definition) :
    Definition := d.map (σ d.name.name) place

/-- A script in which every function is renamed inside. -/
def renamed (s : Script) (σ : String → String → String) (place : Span → Span) : Script :=
  ⟨s.definitions.map (Definition.renamed σ place)⟩

/-- A script in which one function is renamed inside; the others keep their names. -/
def renameIn (s : Script) (name : String) (m : String → String) : Script :=
  s.renamed (fun g => if g = name then m else id) id

section

variable {σ : String → String → String} {place : Span → Span}

@[simp] theorem Definition.renamed_name (d : Definition) :
    (d.renamed σ place).name.name = d.name.name := rfl

@[simp] theorem Definition.renamed_parameterNames (d : Definition) :
    (d.renamed σ place).parameterNames = d.parameterNames.map (σ d.name.name) := by
  simp [Definition.renamed, Definition.map, Definition.parameterNames, Parameter.map,
    Identifier.map, Function.comp_def]

@[simp] theorem Definition.renamed_parameters_length (d : Definition) :
    (d.renamed σ place).parameters.length = d.parameters.length := List.length_map _

/-- A callee is the same function after renaming. -/
theorem find?_renamed (ds : List Definition) (name : String) :
    (ds.map (Definition.renamed σ place)).find? (·.name.name == name) =
      (ds.find? (·.name.name == name)).map (Definition.renamed σ place) := by
  rw [List.find?_map]
  rfl

end

/-! ## Places do not count -/

theorem Term.bare_eq_map (t : Term) : t.bare = t.map id fun _ => ⟨0, 0⟩ := by
  induction t using Term.bare.induct with
  | case6 span callee arguments ih =>
    rw [Term.bare, Term.map, List.map_congr_left ih]
    rfl
  | case7 span value name dependsOn ih =>
    rw [Term.bare, Term.map, ih]
    rfl
  | _ => simp [Term.bare, Term.map, Identifier.bare, Identifier.map, *]

theorem Statement.bare_eq_map (s : Statement) : s.bare = s.map id fun _ => ⟨0, 0⟩ := by
  cases s with
  | bind span name value =>
    rw [Statement.bare, Statement.map, Term.bare_eq_map]
    rfl
  | result span values =>
    rw [Statement.bare, Statement.map, List.map_congr_left fun t _ => Term.bare_eq_map t]

theorem Definition.bare_eq_renamed (d : Definition) :
    d.bare = d.renamed (fun _ => id) fun _ => ⟨0, 0⟩ := by
  rw [Definition.bare, List.map_congr_left fun s _ => Statement.bare_eq_map s]
  rfl

/-! ## Actions that succeed together -/

/-- The actions have a value in the same cases; then it is the same one, and they have recorded the
same. They may fail with different errors. -/
def SameSuccess {α : Type} (a a' : Evaluation α) : Prop :=
  ∀ r v r', outcomeOf a' r = (.ok v, r') ↔ outcomeOf a r = (.ok v, r')

theorem outcomeOf_bind_eq_ok {α β : Type} {a : Evaluation α} {f : α → Evaluation β}
    {r r'' : Recorder} {w : β} : outcomeOf (a >>= f) r = (.ok w, r'') ↔
      ∃ v r', outcomeOf a r = (.ok v, r') ∧ outcomeOf (f v) r' = (.ok w, r'') := by
  rcases h : outcomeOf a r with ⟨e | v, r'⟩
  · simp [outcomeOf_error h]
  · rw [outcomeOf_ok h]
    exact ⟨fun hNext => ⟨v, r', rfl, hNext⟩, by rintro ⟨_, _, ⟨rfl, rfl⟩, hNext⟩; exact hNext⟩

namespace SameSuccess

variable {α β : Type} {a a' a'' : Evaluation α} {f f' : α → Evaluation β}

theorem refl (a : Evaluation α) : SameSuccess a a := fun _ _ _ => Iff.rfl

theorem failAt (span span' : Span) (cause cause' : TermError) :
    SameSuccess (failAt span cause : Evaluation α) (Script.failAt span' cause') :=
  fun _ _ _ => ⟨fun h => absurd (congrArg Prod.fst h) (by simp [outcomeOf, Script.failAt]),
    fun h => absurd (congrArg Prod.fst h) (by simp [outcomeOf, Script.failAt])⟩

theorem bind (h : SameSuccess a a') (hNext : ∀ v, SameSuccess (f v) (f' v)) :
    SameSuccess (a >>= f) (a' >>= f') := by
  intro r w r''
  simp only [outcomeOf_bind_eq_ok, h r _ _, hNext _ _ w r'']

theorem mapM {γ γ' : Type} {g : γ → Evaluation β} {g' : γ' → Evaluation β} {i : γ → γ'}
    {cs : List γ} (h : ∀ c ∈ cs, SameSuccess (g c) (g' (i c))) :
    SameSuccess (cs.mapM g) ((cs.map i).mapM g') := by
  induction cs with
  | nil => exact refl _
  | cons c cs ih =>
    rw [List.map_cons, List.mapM_cons, List.mapM_cons]
    obtain ⟨hFirst, hRest⟩ := List.forall_mem_cons.mp h
    exact hFirst.bind fun b => (ih hRest).bind fun bs => refl _

end SameSuccess

/-! ## Scopes -/

/-- The names stand in the second scope, renamed, for what they stand for in the first. -/
def Aligned (m : String → String) (names : Set String) (scope scope' : Scope) : Prop :=
  ∀ x ∈ names, scope'.lookup (m x) = scope.lookup x

variable {m : String → String} {place : Span → Span} {names : Set String} {scope scope' : Scope}

theorem aligned_cons (h : Aligned m names scope scope') (hm : Set.InjOn m names) {name : String}
    (hName : name ∈ names) (v : ValueId) :
    Aligned m names ((name, v) :: scope) ((m name, v) :: scope') := by
  intro x hx
  by_cases hSame : x = name
  · rw [hSame, List.lookup_cons_self, List.lookup_cons_self]
  · have hApart : m x ≠ m name := fun hEq => hSame (hm hx hName hEq)
    rw [List.lookup_cons, List.lookup_cons, beq_false_of_ne hSame, beq_false_of_ne hApart]
    exact h x hx

/-- Parameters and renamed ones stand for the same arguments. -/
theorem aligned_zip (hm : Set.InjOn m names) {xs : List String} (h : ∀ x ∈ xs, x ∈ names)
    (vs : List ValueId) : Aligned m names (xs.zip vs) ((xs.map m).zip vs) := by
  induction xs generalizing vs with
  | nil => exact fun _ _ => rfl
  | cons x xs ih =>
    obtain ⟨hFirst, hRest⟩ := List.forall_mem_cons.mp h
    cases vs with
    | nil => exact fun _ _ => rfl
    | cons v vs => exact aligned_cons (ih hRest vs) hm hFirst v

theorem sameSuccess_find (h : Aligned m names scope scope') {name : Identifier}
    (hName : name.name ∈ names) :
    SameSuccess (scope.find name) (scope'.find (name.map m place)) := by
  unfold Scope.find
  rw [Identifier.map, h name.name hName]
  cases scope.lookup name.name with
  | some v => exact .refl _
  | none => exact .failAt _ _ _ _

/-! ## Terms -/

theorem sameSuccess_axisOf (t : Term) : SameSuccess (axisOf t) (axisOf (t.map m place)) := by
  cases t with
  | number span x =>
    rw [Term.map, axisOf, axisOf]
    cases naturalValue? x with
    | some n => exact .refl _
    | none => exact .failAt _ _ _ _
  | _ =>
    rw [Term.map]
    exact .failAt _ _ _ _

theorem sameSuccess_dimsOf (t : Term) : SameSuccess (dimsOf t) (dimsOf (t.map m place)) := by
  cases t with
  | dims span ns =>
    rw [Term.map]
    exact .refl _
  | _ =>
    rw [Term.map]
    exact .failAt _ _ _ _

/-- What a built-in call records does not depend on the names in its other arguments. -/
theorem sameSuccess_recordBuiltin (b : Builtin) (v : ValueId) (others : List Term) :
    SameSuccess (recordBuiltin b v others) (recordBuiltin b v (others.map (Term.map m place))) := by
  -- The other arguments are numbers and rows of extents, which no renaming touches.
  cases b with
  | call f => exact .refl _
  | cast => exact .refl _
  | sum =>
    cases others with
    | nil => exact .refl _
    | cons t ts =>
      exact (SameSuccess.mapM fun u _ => sameSuccess_axisOf u).bind fun axes => .refl _
  | transpose =>
    match others with
    | [] => exact .refl _
    | [t] => exact (sameSuccess_dimsOf t).bind fun dims => .refl _
    | _ :: _ :: _ => exact .refl _
  | reshape =>
    cases others with
    | nil => exact .refl _
    | cons t ts => exact (sameSuccess_dimsOf t).bind fun dims => .refl _
  | broadcast =>
    cases others with
    | nil => exact .refl _
    | cons t ts => exact (sameSuccess_dimsOf t).bind fun dims => .refl _

variable {σ : String → String → String}

/-- The surroundings of a body and those of a renamed body: they have the same functions, renamed
inside, and bodies that succeed together. -/
structure Context.Matches (σ : String → String → String) (place : Span → Span) (c c' : Context) :
    Prop where
  definitions : c'.definitions = c.definitions.map (Definition.renamed σ place)
  stack : c'.stack = c.stack
  inline : ∀ d ∈ c.definitions, ∀ vs,
    SameSuccess (c.inline d vs) (c'.inline (d.renamed σ place) vs)

section

variable {c c' : Context} {d : Definition}

theorem sameSuccess_checkCall (hc : c.Matches σ place c') (d : Definition) (span span' : Span)
    (given : Nat) :
    SameSuccess (c.checkCall d span given) (c'.checkCall (d.renamed σ place) span' given) := by
  unfold Context.checkCall
  rw [hc.stack, Definition.renamed_name, Definition.renamed_parameters_length]
  have hCount : SameSuccess
      (if given ≠ d.parameters.length then
        failAt span (.argumentCount d.name.name d.parameters.length given) else pure ())
      (if given ≠ d.parameters.length then
        failAt span' (.argumentCount d.name.name d.parameters.length given) else pure ()) := by
    split
    · exact .failAt _ _ _ _
    · exact .refl _
  by_cases hOpen : c.stack.contains d.name.name
  · rw [if_pos hOpen, if_pos hOpen]
    exact (SameSuccess.failAt span span' _ _).bind fun _ => hCount
  · rw [if_neg hOpen, if_neg hOpen]
    exact hCount

theorem sameSuccess_callFunction (hc : c.Matches σ place c') (hd : d ∈ c.definitions)
    (span span' : Span) (vs : List ValueId) :
    SameSuccess (c.callFunction d span vs) (c'.callFunction (d.renamed σ place) span' vs) := by
  unfold Context.callFunction
  refine (hc.inline d hd vs).bind fun results => ?_
  split
  · exact .refl _
  · exact .failAt _ _ _ _

theorem sameSuccess_evaluateEach {ts : List Term}
    (h : ∀ t ∈ ts, SameSuccess (evaluate c scope t) (evaluate c' scope' (t.map m place))) :
    SameSuccess (evaluateEach c scope ts) (evaluateEach c' scope' (ts.map (Term.map m place))) := by
  induction ts with
  | nil =>
    rw [List.map_nil, evaluateEach, evaluateEach]
    exact .refl _
  | cons t ts ih =>
    rw [List.map_cons, evaluateEach, evaluateEach]
    obtain ⟨hFirst, hRest⟩ := List.forall_mem_cons.mp h
    exact hFirst.bind fun v => (ih hRest).bind fun vs => .refl _

/-- **A renamed term** has a value in a scope aligned with the given one in the same cases, and the
same one. -/
theorem sameSuccess_evaluate (hc : c.Matches σ place c') (hScope : Aligned m names scope scope')
    (t : Term) (hNames : ∀ x ∈ t.locals, x ∈ names) :
    SameSuccess (evaluate c scope t) (evaluate c' scope' (t.map m place)) := by
  induction t using Term.bare.induct with
  | case1 span x =>
    rw [Term.map, evaluate, evaluate]
    exact .refl _
  | case2 span ns =>
    rw [Term.map, evaluate, evaluate]
    exact .failAt _ _ _ _
  | case3 name =>
    rw [Term.map, evaluate, evaluate]
    exact sameSuccess_find hScope (hNames name.name (by simp [Term.locals]))
  | case4 span e ih =>
    rw [Term.locals] at hNames
    rw [Term.map, evaluate, evaluate]
    exact (ih hNames).bind fun v => .refl _
  | case5 span op lhs rhs ihLhs ihRhs =>
    rw [Term.locals, List.forall_mem_append] at hNames
    rw [Term.map, evaluate, evaluate]
    exact (ihLhs hNames.1).bind fun a => (ihRhs hNames.2).bind fun b => .refl _
  | case6 span callee arguments ih =>
    rw [Term.locals] at hNames
    have hEach : ∀ t ∈ arguments, SameSuccess (evaluate c scope t)
        (evaluate c' scope' (t.map m place)) := fun t ht =>
      ih t ht fun x hx => hNames x (List.mem_flatMap.mpr ⟨t, ht, hx⟩)
    have hRow := sameSuccess_evaluateEach hEach
    rw [Term.map, evaluate, evaluate, hc.definitions, Identifier.map, id, find?_renamed]
    -- Both calls are of the same function, or neither is of a function of the script.
    cases hFind : c.definitions.find? (·.name.name == callee.name) with
    | some d =>
      dsimp only [Option.map_some]
      rw [List.length_map]
      exact (sameSuccess_checkCall hc d _ _ _).bind fun _ => hRow.bind fun vs =>
        sameSuccess_callFunction hc (List.mem_of_find?_eq_some hFind) _ _ vs
    | none =>
      dsimp only [Option.map_none]
      cases Builtin.ofName? callee.name with
      | some b =>
        dsimp only
        rw [List.length_map]
        split
        · cases arguments with
          | nil => exact .failAt _ _ _ _
          | cons first others =>
            exact (hEach first List.mem_cons_self).bind fun v =>
              sameSuccess_recordBuiltin b v others
        · exact .failAt _ _ _ _
      | none => exact hRow.bind fun vs => .refl _
  | case7 span value name dependsOn ih =>
    rw [Term.locals, List.forall_mem_append] at hNames
    rw [Term.map, evaluate, evaluate]
    refine (ih hNames.1).bind fun v => SameSuccess.bind ?_ fun dependencies => .refl _
    cases dependsOn with
    | none => exact .refl _
    | some ns =>
      refine SameSuccess.bind (SameSuccess.mapM fun n hn => ?_) fun vs => .refl _
      exact sameSuccess_find hScope (hNames.2 n.name (List.mem_map.mpr ⟨n, hn, rfl⟩))

/-! ## Bodies -/

theorem sameSuccess_runStatements (hc : c.Matches σ place c') (hm : Set.InjOn m names)
    {rest : List Statement} (hScope : Aligned m names scope scope')
    (hNames : ∀ x ∈ rest.flatMap Statement.locals, x ∈ names) :
    SameSuccess (runStatements c scope rest)
      (runStatements c' scope' (rest.map (Statement.map m place))) := by
  induction rest generalizing scope scope' with
  | nil => exact .refl _
  | cons statement rest ih =>
    rw [List.flatMap_cons, List.forall_mem_append] at hNames
    obtain ⟨hFirst, hRest⟩ := hNames
    cases statement with
    | bind span name value =>
      rw [Statement.locals, List.forall_mem_cons] at hFirst
      rw [List.map_cons, Statement.map, runStatements, runStatements]
      -- The rest has the longer scopes, which are aligned again because the map is injective.
      exact (sameSuccess_evaluate hc hScope value hFirst.2).bind fun v =>
        ih (aligned_cons hScope hm hFirst.1 v) hRest
    | result span values =>
      rw [List.map_cons, Statement.map, runStatements, runStatements, map_eq_pure_bind,
        map_eq_pure_bind]
      refine SameSuccess.bind (sameSuccess_evaluateEach fun t ht => ?_) fun vs => .refl _
      exact sameSuccess_evaluate hc hScope t fun x hx =>
        hFirst x (List.mem_flatMap.mpr ⟨t, ht, hx⟩)

end

variable {s : Script} {d : Definition}

/-- In every function of the script its own map tells apart the names that it binds or uses. -/
def KeepsApart (s : Script) (σ : String → String → String) : Prop :=
  ∀ d ∈ s.definitions, Set.InjOn (σ d.name.name) {x | x ∈ d.locals}

/-- **A renamed body** has values in the same cases, and the same ones. -/
theorem sameSuccess_runBody (hσ : s.KeepsApart σ) (fuel : Nat) (stack : List String)
    (hd : d ∈ s.definitions) (vs : List ValueId) :
    SameSuccess (runBody s.definitions fuel stack d vs)
      (runBody (s.renamed σ place).definitions fuel stack (d.renamed σ place) vs) := by
  induction fuel generalizing stack d vs with
  | zero => exact .failAt _ _ _ _
  | succ fuel ih =>
    rw [runBody, runBody, Definition.renamed_name, Definition.renamed_parameterNames]
    -- A call inside the body has less fuel, whatever function it calls.
    have hc : Context.Matches σ place
        ⟨s.definitions, d.name.name :: stack, runBody s.definitions fuel (d.name.name :: stack)⟩
        ⟨(s.renamed σ place).definitions, d.name.name :: stack,
          runBody (s.renamed σ place).definitions fuel (d.name.name :: stack)⟩ :=
      ⟨rfl, rfl, fun d' hd' vs => ih _ hd' vs⟩
    have hScope : Aligned (σ d.name.name) {x | x ∈ d.locals} (d.parameterNames.zip vs)
        ((d.parameterNames.map (σ d.name.name)).zip vs) :=
      aligned_zip (hσ d hd) (fun x hx => List.mem_append_left _ hx) vs
    refine (sameSuccess_runStatements hc (hσ d hd) hScope
      fun x hx => List.mem_append_right _ hx).bind fun values => ?_
    cases values with
    | some vs => exact .refl _
    | none => exact .failAt _ _ _ _

/-! ## Captures -/

theorem capture_eq_ok {shapes : List Shape} {t : Trace} : s.capture d shapes = .ok t ↔
    shapes.length = d.parameters.length ∧ ∃ outputs r,
      outcomeOf (s.record d shapes) Recorder.empty = (.ok outputs, r) ∧
        r.finish d.name.name outputs = .ok t := by
  unfold capture
  by_cases hCount : shapes.length = d.parameters.length
  · rw [if_neg (not_not_intro hCount)]
    show (do
      let (outputs, r) := outcomeOf (s.record d shapes) Recorder.empty
      (r.finish d.name.name (← outputs)).mapError .recording) = Except.ok t ↔ _
    rcases outcomeOf (s.record d shapes) Recorder.empty with ⟨e | outputs, r⟩
    · exact ⟨fun h => absurd h (by simp [bind, Except.bind]), fun h => absurd h.2 (by simp)⟩
    · -- Closing a recording fails only with an error of its own, which is handed on.
      have hFinish : (r.finish d.name.name outputs).mapError CaptureError.recording = .ok t ↔
          r.finish d.name.name outputs = .ok t := by
        cases r.finish d.name.name outputs <;> simp [Except.mapError]
      refine hFinish.trans ⟨fun h => ⟨hCount, outputs, r, rfl, h⟩, ?_⟩
      rintro ⟨-, _, _, ⟨rfl, rfl⟩, h⟩
      exact h
  · rw [if_pos hCount]
    exact ⟨fun h => absurd h (by simp [throw, throwThe, MonadExceptOf.throw, bind, Except.bind]),
      fun h => absurd h.1 hCount⟩

/-- **A renamed script has the same captures**, where the captured function keeps the names of its
parameters, which are those of the arguments. -/
theorem capture_renamed (hσ : s.KeepsApart σ) (hd : d ∈ s.definitions)
    (hKept : ∀ x ∈ d.parameterNames, σ d.name.name x = x) {shapes : List Shape} {t : Trace} :
    (s.renamed σ place).capture (d.renamed σ place) shapes = .ok t ↔
      s.capture d shapes = .ok t := by
  have hParameters : (d.renamed σ place).parameterNames = d.parameterNames := by
    rw [Definition.renamed_parameterNames, List.map_congr_left hKept, List.map_id']
  have hRecord : SameSuccess (s.record d shapes)
      ((s.renamed σ place).record (d.renamed σ place) shapes) := by
    unfold record
    rw [hParameters]
    refine (SameSuccess.refl _).bind fun vs => ?_
    rw [renamed, List.length_map]
    exact sameSuccess_runBody hσ _ _ hd vs
  rw [capture_eq_ok, capture_eq_ok, Definition.renamed_parameters_length,
    Definition.renamed_name]
  simp only [hRecord _ _ _]

/-- Scripts that differ in places have the same captures. -/
theorem capture_eq_ok_of_bare {s' : Script} {d' : Definition}
    (hs : s'.definitions.map Definition.bare = s.definitions.map Definition.bare)
    (hSame : d'.bare = d.bare) (hd' : d' ∈ s'.definitions) (hd : d ∈ s.definitions)
    {shapes : List Shape} {t : Trace} :
    s'.capture d' shapes = .ok t ↔ s.capture d shapes = .ok t := by
  have hBare : ∀ u : Script, u.renamed (fun _ => id) (fun _ => ⟨0, 0⟩) =
      ⟨u.definitions.map Definition.bare⟩ := fun u =>
    congrArg Script.mk (List.map_congr_left fun d _ => d.bare_eq_renamed.symm)
  have hCapture : ∀ (u : Script) (g : Definition), g ∈ u.definitions →
      ((⟨u.definitions.map Definition.bare⟩ : Script).capture g.bare shapes = .ok t ↔
        u.capture g shapes = .ok t) := fun u g hg => by
    rw [← hBare, Definition.bare_eq_renamed]
    exact capture_renamed (fun _ _ => Set.injOn_id _) hg fun _ _ => rfl
  rw [← hCapture s' d' hd', ← hCapture s d hd, hs, hSame]

/-! ## Loaded scripts -/

theorem repetition_eq_nil {kind : String} {before : List Identifier} {name : Identifier}
    (h : repetition kind before name = []) : ∀ n ∈ before, n.name ≠ name.name := by
  unfold repetition at h
  split at h
  · rename_i hNone
    simpa using hNone
  · exact absurd h (by simp)

/-- The functions of a script that is loaded have distinct names. -/
theorem nodup_of_load {source : String} (h : load source = .ok s) :
    (s.definitions.map (·.name.name)).Nodup := by
  unfold load at h
  dsimp only at h
  split at h
  · exact absurd h (by simp)
  · rename_i file hFile
    split at h
    · rename_i hReports
      obtain rfl : (⟨file.definitions⟩ : Script) = s := Except.ok.inj h
      have hChecked := (List.append_eq_nil_iff.mp (List.isEmpty_iff.mp hReports)).2
      refine List.pairwise_iff_getElem.mpr fun i j hi hj hLt => ?_
      rw [List.length_map] at hi hj
      dsimp only at hi hj
      -- No report was made for the later one of two definitions, so their names differ.
      have hItem := List.flatMap_eq_nil_iff.mp hChecked (file.definitions[j], j)
        (List.mk_mem_zipIdx_iff_getElem?.mpr (List.getElem?_eq_getElem hj))
      have hBefore := repetition_eq_nil (List.append_eq_nil_iff.mp hItem).1 file.definitions[i].name
        (List.mem_take_iff_getElem.mpr ⟨i, by rw [List.length_map]; omega, List.getElem_map _⟩)
      rwa [List.getElem_map, List.getElem_map]
    · exact absurd h (by simp)

/-- Functions of one name are the same. -/
theorem eq_of_name_eq (h : (s.definitions.map (·.name.name)).Nodup) {f : Definition}
    (hd : d ∈ s.definitions) (hf : f ∈ s.definitions) (hName : d.name.name = f.name.name) :
    d = f := List.inj_on_of_nodup_map h hd hf hName

/-- **Inlining is hygienic.** In a script that is loaded let one function be renamed inside, by a
map that is injective on the names that the function binds or uses. From any text in which the
script is then written, every function is captured with the same trace as before. Only if it is the
renamed function that is captured, its parameters have to keep their names. -/
theorem capture_renameIn {source : String} (hLoad : load source = .ok s) {f : Definition}
    (hf : f ∈ s.definitions) {m : String → String} (hm : Set.InjOn m {x | x ∈ f.locals})
    {s' : Script} (hs' : s'.definitions.map Definition.bare =
      (s.renameIn f.name.name m).definitions.map Definition.bare)
    (hd : d ∈ s.definitions) (hKept : d = f → ∀ x ∈ f.parameterNames, m x = x)
    {d' : Definition} (hd' : d' ∈ s'.definitions) (hName : d'.name.name = d.name.name)
    (shapes : List Shape) (t : Trace) :
    s'.capture d' shapes = .ok t ↔ s.capture d shapes = .ok t := by
  have hNodup := nodup_of_load hLoad
  let σ : String → String → String := fun g => if g = f.name.name then m else id
  have hσ : s.KeepsApart σ := by
    intro g hg
    by_cases hEq : g.name.name = f.name.name
    · -- Names of functions are distinct, so this is the function that is renamed.
      obtain rfl := eq_of_name_eq hNodup hg hf hEq
      simpa [σ] using hm
    · simp [σ, hEq, Set.injOn_id]
  have hParameters : ∀ x ∈ d.parameterNames, σ d.name.name x = x := by
    intro x hx
    by_cases hEq : d.name.name = f.name.name
    · obtain rfl := eq_of_name_eq hNodup hd hf hEq
      simpa [σ] using hKept rfl x hx
    · simp [σ, hEq]
  -- The function of this name in the other text is the renamed one, places apart.
  obtain ⟨g, hg, hSame⟩ : ∃ g ∈ s.definitions, d'.bare = (g.renamed σ id).bare := by
    have hMem : d'.bare ∈ (s.renameIn f.name.name m).definitions.map Definition.bare :=
      hs' ▸ List.mem_map_of_mem hd'
    obtain ⟨_, hRenamed, hEq⟩ := List.mem_map.mp hMem
    obtain ⟨g, hg, rfl⟩ := List.mem_map.mp hRenamed
    exact ⟨g, hg, hEq.symm⟩
  have hNames : d'.name.name = g.name.name := congrArg (·.name.name) hSame
  obtain rfl := eq_of_name_eq hNodup hg hd (hNames.symm.trans hName)
  rw [capture_eq_ok_of_bare hs' hSame hd' (List.mem_map_of_mem hg)]
  exact capture_renamed hσ hg hParameters

/-- The function `fn g(x) { let y = x * x return y as d(x) }` on four lines, with these letters for
`x` and `y`. -/
def square (x y : String) : Definition :=
  let x (start : Nat) : Identifier := ⟨x, ⟨start, start + 1⟩⟩
  let y (start : Nat) : Identifier := ⟨y, ⟨start, start + 1⟩⟩
  let product : Term := .binary ⟨19, 24⟩ (.arith .mul) (.var (x 19)) (.var (x 23))
  let value : Term := .named ⟨33, 42⟩ (.var (y 33)) ⟨"d", ⟨38, 39⟩⟩ (some [x 40])
  ⟨⟨"g", ⟨3, 4⟩⟩, [⟨x 5, [], ⟨5, 6⟩⟩],
    [.bind ⟨11, 24⟩ (y 15) product, .result ⟨26, 42⟩ [value]], ⟨0, 44⟩⟩

/-- The function `fn f(y) { return g(y) - y }`, on three lines below. -/
def squareLess : Definition :=
  let y (start : Nat) : Identifier := ⟨"y", ⟨start, start + 1⟩⟩
  let call : Term := .call ⟨63, 67⟩ ⟨"g", ⟨63, 64⟩⟩ [.var (y 65)]
  ⟨⟨"f", ⟨48, 49⟩⟩, [⟨y 50, [], ⟨50, 51⟩⟩],
    [.result ⟨56, 71⟩ [.binary ⟨63, 71⟩ (.arith .sub) call (.var (y 70))]], ⟨45, 73⟩⟩

/-- The script of both. -/
def squares (x y : String) : Script := ⟨[square x y, squareLess]⟩

/-- Its text, with `x` and `y` for themselves. -/
def squaresText : String :=
  "fn g(x) \x7b\n let y = x * x\n return y as d(x)\n\x7d\n" ++
    "fn f(y) \x7b\n return g(y) - y\n\x7d"

/-- The parameter of `g` and the value that it names may exchange their names, although the function
that calls it has the name `y` for another value. -/
theorem capture_renameIn_squares :
    load squaresText = .ok (squares "x" "y") ∧
      ∃ t, (squares "x" "y").capture squareLess [[2]] = .ok t ∧
        (squares "y" "x").capture squareLess [[2]] = .ok t := by
  have hLoad : load squaresText = .ok (squares "x" "y") := by cbv
  have hCaller : squareLess ≠ square "x" "y" := fun h =>
    absurd (congrArg (·.name.name) h) (by decide)
  have hRenamed : (squares "y" "x").definitions.map Definition.bare =
      ((squares "x" "y").renameIn "g" (Equiv.swap "x" "y")).definitions.map Definition.bare := by
    simp [squares, renameIn, renamed, Definition.renamed, square, squareLess, Definition.map,
      Definition.bare, Parameter.map, Parameter.bare, Statement.map, Statement.bare, Term.map,
      Term.bare, Identifier.map, Identifier.bare]
  have hLast : ∀ d, squareLess ∈ [d, squareLess] := fun d =>
    List.mem_cons_of_mem d List.mem_cons_self
  exact ⟨hLoad, _, rfl, (capture_renameIn hLoad List.mem_cons_self
    (Equiv.swap "x" "y").injective.injOn hRenamed (hLast _) (fun h => absurd h hCaller) (hLast _)
    rfl [[2]] _).mpr rfl⟩

end ArrayEquations.Script
