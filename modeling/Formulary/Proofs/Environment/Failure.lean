import Formulary.Environment
import Formulary.Proofs.Evaluation.Places
import Formulary.Proofs.Flattening.NormalForm

/-!
# Requests that fail

A request that changes the objects, the functions or the rules of an environment goes through, or is
answered with a failure, or traps while a parameter is drawn (`Performs`). What a request that stops
leaves behind is said by `Performs.of_error`: it is the environment before it, unless the request is
for a parameter that is calculated by a formula. Such a formula gets its stand-ins as soon as it can
be read, before it turns out whether it gives a number (`Request.calculated?`).

So the generator of an environment has moved on after a failure exactly if the formula of a
parameter calls a function that has no meaning yet.
-/

namespace Formulary

namespace Functions

variable {fs : Functions} {r : Random} {names : List String} {name other : String}

/-- All functions that an expression calls have a meaning. -/
def Know (fs : Functions) (e : Expr) : Prop :=
  ∀ name ∈ e.nodes.filterMap calledBy?, (fs.get? name).isSome = true

instance (fs : Functions) (e : Expr) : Decidable (fs.Know e) := by
  unfold Know
  infer_instance

theorem isSome_get?_iff : (fs.get? name).isSome = true ↔ ∃ entry ∈ fs.entries, entry.1 = name := by
  rw [get?, List.lookup_isSome_iff]
  exact exists_congr fun entry => and_congr_right' (beq_iff_eq.trans eq_comm)

theorem ensure_of_known (h : (fs.get? name).isSome = true) : fs.ensure name r = (fs, r) := by
  obtain ⟨d, hd⟩ := Option.isSome_iff_exists.1 h
  rw [ensure, hd]

/-- A function has a meaning after a stand-in has been asked for, and keeps it. -/
theorem isSome_get?_ensure (h : other = name ∨ (fs.get? other).isSome = true) :
    ((fs.ensure name r).1.get? other).isSome = true := by
  unfold ensure
  split
  · rename_i heq
    rcases h with rfl | h
    · rw [heq, Option.isSome_some]
    · exact h
  · rw [isSome_get?_iff]
    by_cases hname : other = name
    · exact ⟨_, List.mem_cons_self, hname.symm⟩
    · obtain ⟨entry, hentry, rfl⟩ := isSome_get?_iff.1 (h.resolve_left hname)
      exact ⟨entry, List.mem_cons_of_mem _ (List.mem_filter.2 ⟨hentry, by simpa using hname⟩), rfl⟩

theorem ensureAll_cons (fs : Functions) (name : String) (names : List String) (r : Random) :
    fs.ensureAll (name :: names) r =
      (fs.ensure name r).1.ensureAll names (fs.ensure name r).2 := rfl

theorem ensureAll_of_known (h : ∀ name ∈ names, (fs.get? name).isSome = true) :
    fs.ensureAll names r = (fs, r) := by
  induction names with
  | nil => rfl
  | cons name names ih =>
    obtain ⟨hname, hnames⟩ := List.forall_mem_cons.1 h
    rw [ensureAll_cons, ensure_of_known hname, ih hnames]

/-- Afterwards the functions have a meaning, and so have those that had one before. -/
theorem isSome_get?_ensureAll (h : other ∈ names ∨ (fs.get? other).isSome = true) :
    ((fs.ensureAll names r).1.get? other).isSome = true := by
  induction names generalizing fs r with
  | nil => exact h.resolve_left List.not_mem_nil
  | cons name names ih =>
    rw [ensureAll_cons]
    refine ih ?_
    rw [List.mem_cons, or_assoc] at h
    rcases h with h | h | h
    · exact .inr (isSome_get?_ensure (.inl h))
    · exact .inl h
    · exact .inr (isSome_get?_ensure (.inr h))

/-- Nothing is drawn for an expression exactly if the functions it calls all have a meaning. -/
theorem register_eq_self_iff {e : Expr} : fs.register e r = (fs, r) ↔ fs.Know e := by
  constructor
  · intro h name hname
    have hafter : ((fs.register e r).1.get? name).isSome = true :=
      isSome_get?_ensureAll (.inl hname)
    rwa [h] at hafter
  · exact ensureAll_of_known

end Functions

namespace Environment

/-- What an environment is asked to do that may fail. -/
inductive Request where
  | parameter (name : String) (p : Parameter)
  | expression (name formula : String)
  | number (name : String) (e : Expr)
  | function (name input formula : String)
  | rule (catalog : CatalogName) (equation description : String) (oneWay : Bool)
  | disable (equation : String)

/-- An answer that may only fail, without what it gives. -/
def completion {α : Type} (answer : Except Failure α) : Except Stop Unit :=
  (answer.mapError .failed).map fun _ => ()

/-- Whether a request goes through, and the environment after it. -/
def perform (env : Environment) (request : Request) : Except Stop Unit × Environment :=
  match request with
  | .parameter name p => (env.addParameter name p).map (·.map fun _ => ()) id
  | .expression name formula => (env.addExpression name formula).map completion id
  | .number name e => (env.addNumber name e).map completion id
  | .function name input formula => (env.define name input formula).map completion id
  | .rule catalog equation description oneWay =>
    (env.addRule catalog equation description oneWay).map completion id
  | .disable equation => (env.disableReduction equation).map completion id

variable {env : Environment} {f : Failure} {stop : Stop} {e : Expr} {source : String}

/-! ## Reading -/

/-- A formula as it is read at first, with the names of the objects bound. -/
def firstReading (env : Environment) (source : String) : Expr :=
  Reading.read { negativeNumbers := env.options.negativeNumbers } env.names source

/-- Registering changes nothing exactly if all called functions have a meaning. -/
theorem register_eq_self_iff : env.register e = env ↔ env.functions.Know e := by
  rw [← Functions.register_eq_self_iff (r := env.generator)]
  constructor
  · intro h
    exact Prod.ext (congrArg Environment.functions h) (congrArg Environment.generator h)
  · intro h
    rw [register, h]

/-- The formula of a parameter that is calculated, if it can be read. -/
def Request.calculated? (env : Environment) : Request → Option Expr
  | .parameter _ ⟨.formula source, _⟩ =>
    if (env.firstReading source).hasIssue then none else some (env.firstReading source)
  | _ => none

/-- Reading registers the calls of a formula without an issue, and does nothing else. -/
theorem read_snd (env : Environment) (mode : ReadingMode) (source : String)
    (hdecimals : mode.noDecimals = false) :
    (env.read mode source).2 =
      if (env.firstReading source).hasIssue then env
      else env.register (env.firstReading source) := by
  unfold read firstReading
  rw [hdecimals]
  dsimp only
  split <;> rfl

/-- An expression that can be read has no issue after it has been flattened. -/
theorem hasIssue_read (h : (env.firstReading source).hasIssue = false) :
    (env.read {} source).1.hasIssue = false := by
  unfold read
  unfold firstReading at h
  dsimp only
  rw [h, if_neg Bool.false_ne_true, if_neg Bool.false_ne_true]
  split
  · exact Expr.hasIssue_of_normal (Expr.normal_flatten h)
  · exact h

theorem readSound_snd (mode : ReadingMode) :
    (env.readSound mode source).2 = (env.read mode source).2 := by
  unfold readSound
  dsimp only
  split <;> rfl

/-- A formula that cannot be read leaves no trace. -/
theorem readSound_of_error (h : (env.readSound {} source).1 = .error f) :
    (env.readSound {} source).2 = env := by
  rw [readSound_snd, read_snd env {} source rfl]
  refine if_pos (Bool.not_eq_false _ ▸ fun hissue => ?_)
  have hread := hasIssue_read hissue
  rw [Expr.hasIssue, Option.isSome_eq_false_iff, Option.isNone_iff_eq_none] at hread
  unfold readSound at h
  dsimp only at h
  rw [hread] at h
  cases h

/-- An environment binds no sequences, so what is evaluated in it never traps. Only the draw of a
parameter does. -/
theorem trapFree_outcome (env : Environment) (values : List (String × Float)) (e : Expr) :
    Evaluation.TrapFree
      (e.outcome { env.bindings with values := values ++ env.bindings.values }) :=
  Evaluation.trapFree_outcome rfl e

/-! ## Requests -/

variable {request : Request}

/-- A parameter that is not calculated is chosen and changes the generator at most, or its draw
traps and changes nothing. -/
theorem choose_cases (env : Environment) (name : String) (c : Parameter.Choice) :
    (∃ n r, env.choose name c = (.ok n, { env with generator := r })) ∨
      (∃ least greatest step nonzero trap, c = .random least greatest step nonzero ∧
        env.choose name c = (.error (.trapped trap), env)) ∨
      ∃ source, c = .formula source ∧
        (env.choose name c).2 = (env.read { constant := true } source).2 := by
  cases c with
  | random least greatest step nonzero =>
    unfold choose
    dsimp only
    split
    · exact .inl ⟨_, _, rfl⟩
    · exact .inr (.inl ⟨_, _, _, _, _, rfl, rfl⟩)
  | formula source =>
    refine .inr (.inr ⟨source, rfl, ?_⟩)
    unfold choose
    dsimp only
    split
    · split <;> rfl
    · rfl
  | fraction numerator denominator => exact .inl ⟨_, _, rfl⟩
  | fixed value => exact .inl ⟨_, _, rfl⟩

/-- The ways in which a request ends, with the answer and the environment after it. -/
inductive Performs (env : Environment) :
    Request → Except Stop Unit → Environment → Prop where
  | parameter {name : String} {p : Parameter} {n : Number} {env' : Environment}
      (h : env.choose name p.choice = (.ok n, env')) :
      Performs env (.parameter name p) (.ok ())
        (env'.putParameter name (Parameter.round p.precision n))
  | parameterStops {name : String} {p : Parameter} {stop : Stop} {env' : Environment}
      (h : env.choose name p.choice = (.error stop, env')) :
      Performs env (.parameter name p) (.error stop) env'
  | expression {name formula : String} {e : Expr} {env' : Environment}
      (h : env.readSound {} (env.decode formula false) = (.ok e, env')) :
      Performs env (.expression name formula) (.ok ())
        { env' with expressions := put env'.expressions name e }
  | expressionFails {name formula : String} {f : Failure} {env' : Environment}
      (h : env.readSound {} (env.decode formula false) = (.error f, env')) :
      Performs env (.expression name formula) (.error (.failed f)) env'
  | number {name : String} {e : Expr} {n : Number} (h : env.foldNumber ⟨0, 0⟩ e = .number n) :
      Performs env (.number name e) (.ok ()) (env.putParameter name n)
  | numberFails {name : String} {e : Expr} :
      Performs env (.number name e) (.error (.failed ⟨⟨0, 0⟩, .notANumber name⟩)) env
  | function {name input formula : String} {body : Expr} {env' : Environment}
      (h : env.readSound {} formula = (.ok body, env')) :
      Performs env (.function name input formula) (.ok ())
        { env' with functions := env'.functions.define name input body }
  | functionFails {name input formula : String} {f : Failure} {env' : Environment}
      (h : env.readSound {} formula = (.error f, env')) :
      Performs env (.function name input formula) (.error (.failed f)) env'
  | rule {catalog : CatalogName} {equation description : String} {oneWay : Bool} {c : Catalog}
      (h : (env.catalog catalog).add env.options equation description true oneWay = .ok c) :
      Performs env (.rule catalog equation description oneWay) (.ok ()) (env.putCatalog c catalog)
  | ruleFails {catalog : CatalogName} {equation description : String} {oneWay : Bool} {f : Failure}
      (h : (env.catalog catalog).add env.options equation description true oneWay = .error f) :
      Performs env (.rule catalog equation description oneWay) (.error (.failed f)) env
  | disable {equation : String} {count : Nat} {c : Catalog}
      (h : env.reductions.disable env.options equation = .ok (count, c)) :
      Performs env (.disable equation) (.ok ()) { env with reductions := c }
  | disableFails {equation : String} {f : Failure}
      (h : env.reductions.disable env.options equation = .error f) :
      Performs env (.disable equation) (.error (.failed f)) env

theorem performs_perform (env : Environment) (request : Request) :
    Performs env request (env.perform request).1 (env.perform request).2 := by
  cases request with
  | parameter name p =>
    simp only [perform, addParameter]
    split
    · exact .parameter ‹_›
    · exact .parameterStops ‹_›
  | expression name formula =>
    simp only [perform, addExpression]
    split
    · exact .expression ‹_›
    · exact .expressionFails ‹_›
  | number name e =>
    simp only [perform, addNumber]
    split
    · exact .number ‹_›
    · exact .numberFails
  | function name input formula =>
    simp only [perform, define]
    split
    · exact .function ‹_›
    · exact .functionFails ‹_›
  | rule catalog equation description oneWay =>
    simp only [perform, addRule]
    split
    · exact .rule ‹_›
    · exact .ruleFails ‹_›
  | disable equation =>
    simp only [perform, disableReduction]
    split
    · exact .disable ‹_›
    · exact .disableFails ‹_›

/-- After a request that stops only the stand-ins of a calculated parameter are there. -/
theorem Performs.of_error {env' : Environment} (h : Performs env request (.error stop) env') :
    env' = (request.calculated? env).elim env env.register := by
  cases h with
  | @parameterStops name p stop env' hchoose =>
    obtain ⟨choice, precision⟩ := p
    obtain ⟨n, r, hok⟩ | ⟨_, _, _, _, trap, rfl, htrap⟩ | ⟨source, rfl, hafter⟩ :=
      choose_cases env name choice
    · cases hok.symm.trans hchoose
    · cases htrap.symm.trans hchoose
      rfl
    · rw [hchoose, read_snd env { constant := true } source rfl] at hafter
      refine hafter.trans ?_
      simp only [Request.calculated?]
      split <;> rfl
  | expressionFails hread =>
    have hsame := readSound_of_error (congrArg Prod.fst hread)
    rwa [hread] at hsame
  | numberFails => rfl
  | functionFails hread =>
    have hsame := readSound_of_error (congrArg Prod.fst hread)
    rwa [hread] at hsame
  | ruleFails => rfl
  | disableFails => rfl

/-- A request that fails or traps leaves the objects, the options and the rules as they are. The
functions and the generator stay as they are, too, unless the request is for a parameter whose
formula can be read and calls a function that has no meaning yet. -/
theorem unchanged_iff_of_error (env : Environment) (request : Request) (stop : Stop)
    (h : (env.perform request).1 = .error stop) :
    { (env.perform request).2 with functions := env.functions, generator := env.generator } = env ∧
      ((env.perform request).2 = env ↔
        ∀ e ∈ request.calculated? env, env.functions.Know e) := by
  have hafter := performs_perform env request
  rw [h] at hafter
  rw [hafter.of_error]
  cases request.calculated? env with
  | none => exact ⟨rfl, by simp⟩
  | some e => exact ⟨rfl, by simpa using register_eq_self_iff⟩

/-- A parameter that cannot be calculated, since its formula has a name that is no parameter. Nothing
changes if the function that the formula calls has been defined. -/
theorem unchanged_of_defined_function :
    let env := ((ofSeed 1234).perform (.function "f" "x" "x+1")).2
    let after := env.perform (.parameter "p" ⟨.formula "f(x)", none⟩)
    after.1 = .error (.failed ⟨⟨0, 4⟩, .undefinedParameter "p"⟩) ∧ after.2 = env := by
  have herror : ((((ofSeed 1234).perform (.function "f" "x" "x+1")).2).perform
      (.parameter "p" ⟨.formula "f(x)", none⟩)).1 =
        .error (.failed ⟨⟨0, 4⟩, .undefinedParameter "p"⟩) := by
    decide +kernel
  exact ⟨herror, (unchanged_iff_of_error _ _ _ herror).2.2 (by decide +kernel)⟩

/-- If the function has no meaning yet, the request fails as well, but the function has a stand-in
afterwards. -/
theorem changed_of_unknown_function :
    let env := ofSeed 1234
    let after := env.perform (.parameter "p" ⟨.formula "f(x)", none⟩)
    after.1 = .error (.failed ⟨⟨0, 4⟩, .undefinedParameter "p"⟩) ∧ after.2 ≠ env := by
  refine ⟨by decide +kernel, fun hsame => ?_⟩
  have hentries := congrArg (fun env : Environment => env.functions.entries.length) hsame
  exact absurd hentries (by decide +kernel)

end Environment

end Formulary
