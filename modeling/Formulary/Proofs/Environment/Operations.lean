import Formulary.Proofs.Environment.Definitions

/-!
# The meanings of functions

A function gets a meaning when it is first called, and only a definition replaces it. Whatever an
environment is asked, the functions it has a meaning for keep it (`Keeps`, `get?_operate`), unless
they are defined anew.

Reading, evaluating and comparing draw stand-ins for the functions that have no meaning yet, one for
each, in the order of their first calls. `Expr.calls` is this order as a recursion over the
expression, and `StandIn.drawAll` the draws. A formula that cannot be read draws nothing.
-/

namespace Formulary

namespace Expr

/-! ## Calls -/

mutual

/-- The functions that an expression calls, builtin ones apart: each call before those in its
argument, and from left to right. -/
def calls : Expr → List String
  | number _ | var _ | invalid _ => []
  | element _ index => index.calls
  | unary _ operand => operand.calls
  | binary _ lhs rhs => lhs.calls ++ rhs.calls
  | nary _ operands => callsList operands
  | call function _ argument =>
    if Names.isBuiltin function then argument.calls else function :: argument.calls
  | derivative body _ => body.calls
  | derivativeAt body _ point => body.calls ++ point.calls
  | invalidPart _ part => part.calls

/-- The functions that several expressions call. -/
def callsList : List Expr → List String
  | [] => []
  | e :: es => e.calls ++ callsList es

end

theorem callsList_eq_flatMap (es : List Expr) : callsList es = es.flatMap calls := by
  induction es with
  | nil => rfl
  | cons e es ih => rw [callsList, ih, List.flatMap_cons]

/-- The walk through an expression meets the calls in this order. -/
theorem called_eq_calls (e : Expr) : e.called = e.calls := by
  have hwalk (e : Expr) :
      e.called = (Functions.calledBy? e).toList ++ e.children.flatMap called := by
    rw [called, nodes_eq, List.filterMap_cons, List.filterMap_flatMap]
    cases Functions.calledBy? e <;> rfl
  induction e using induction_children with
  | step e ih =>
    have hparts : e.children.flatMap called = e.children.flatMap calls := List.flatMap_congr ih
    rw [hwalk, hparts]
    cases e with
    | nary op es => exact (callsList_eq_flatMap es).symm
    | call f primes u =>
      cases hf : Names.isBuiltin f <;> simp [Functions.calledBy?, children, calls, hf]
    | _ => simp [Functions.calledBy?, children, calls]

end Expr

/-- Draws stand-ins for some functions, one after another. -/
def StandIn.drawAll : List String → Random → List (String × Definition) × Random
  | [], r => ([], r)
  | name :: names, r =>
    let (s, r) := draw r
    let (drawn, r) := drawAll names r
    ((name, .standIn s) :: drawn, r)

namespace Functions

variable {fs fs' fs'' : Functions} {r : Random} {names : List String} {name f : String}

/-! ## Stand-ins -/

/-- Those of some functions that have no meaning, each where it first occurs. -/
def unknown (fs : Functions) (names : List String) : List String :=
  (names.filter fun name => (fs.get? name).isNone).eraseDups

theorem unknown_of_known (h : ∀ name ∈ names, (fs.get? name).isSome = true) :
    fs.unknown names = [] := by
  have hnone : names.filter (fun name => (fs.get? name).isNone) = [] :=
    List.filter_eq_nil_iff.2 fun name hname => by
      simpa using Option.isSome_iff_ne_none.1 (h name hname)
  rw [unknown, hnone, List.eraseDups_nil]

/-- What has no meaning yet stands in front of the functions once it has one. -/
theorem insert_of_unknown (h : fs.get? name = none) (d : Definition) :
    fs.insert name d = ⟨(name, d) :: fs.entries⟩ := by
  rw [insert, List.filter_eq_self.2]
  intro entry hentry
  have hne := (List.lookup_eq_none_iff.1 h) entry hentry
  simpa [bne_comm] using hne

theorem unknown_cons_of_known (h : (fs.get? name).isSome = true) :
    fs.unknown (name :: names) = fs.unknown names := by
  have hsome : fs.get? name ≠ none := Option.isSome_iff_ne_none.1 h
  rw [unknown, List.filter_cons_of_neg (by simpa using hsome), unknown]

/-- A function without a meaning comes first, and is no longer unknown after that. -/
theorem unknown_cons_of_unknown (h : fs.get? name = none) (d : Definition) :
    fs.unknown (name :: names) = name :: (fs.insert name d).unknown names := by
  rw [unknown, List.filter_cons_of_pos (by simp [h]), List.eraseDups_cons, List.filter_filter,
    unknown]
  refine congrArg (name :: ·) (congrArg List.eraseDups (List.filter_congr fun f _ => ?_))
  rw [get?_insert]
  by_cases hf : f = name <;> simp [hf]

/-- Drawing stand-ins for several functions gives one to each of them that has no meaning yet. -/
theorem ensureAll_eq (fs : Functions) (names : List String) (r : Random) :
    fs.ensureAll names r =
      (⟨(StandIn.drawAll (fs.unknown names) r).1.reverse ++ fs.entries⟩,
        (StandIn.drawAll (fs.unknown names) r).2) := by
  induction names generalizing fs r with
  | nil => rfl
  | cons name names ih =>
    rw [ensureAll_cons]
    cases hname : fs.get? name with
    | some d =>
      have hknown : (fs.get? name).isSome = true := Option.isSome_of_eq_some hname
      rw [ensure_of_known hknown, ih, unknown_cons_of_known hknown]
    | none =>
      have hensure : fs.ensure name r =
          (fs.insert name (.standIn (StandIn.draw r).1), (StandIn.draw r).2) := by
        rw [ensure, hname]
      rw [hensure, ih, unknown_cons_of_unknown hname (.standIn (StandIn.draw r).1),
        insert_of_unknown hname]
      simp [StandIn.drawAll]

/-! ## Meanings that are kept -/

/-- What has a meaning keeps it. -/
def Keeps (fs fs' : Functions) : Prop := ∀ f d, fs.get? f = some d → fs'.get? f = some d

theorem Keeps.refl (fs : Functions) : Keeps fs fs := fun _ _ h => h

theorem Keeps.trans (h : Keeps fs fs') (h' : Keeps fs' fs'') : Keeps fs fs'' :=
  fun f d hd => h' f d (h f d hd)

theorem keeps_ensure (fs : Functions) (name : String) (r : Random) :
    Keeps fs (fs.ensure name r).1 := by
  unfold ensure
  cases hname : fs.get? name with
  | some d => exact .refl fs
  | none =>
    intro f d hd
    have hne : f ≠ name := by
      rintro rfl
      rw [hname] at hd
      cases hd
    rw [get?_insert, if_neg hne, hd]

theorem keeps_ensureAll (fs : Functions) (names : List String) (r : Random) :
    Keeps fs (fs.ensureAll names r).1 := by
  induction names generalizing fs r with
  | nil => exact .refl fs
  | cons name names ih =>
    rw [ensureAll_cons]
    exact (keeps_ensure fs name r).trans (ih _ _)

end Functions

namespace Environment

open Functions Formulary.Expr

variable {env : Environment} {f : String} {d : Definition}

/-! ## Operations -/

/-- What an environment is asked. -/
inductive Operation where
  /-- A request that may fail. -/
  | request (request : Request)
  | read (mode : ReadingMode) (source : String)
  | register (e : Expr)
  | evaluate (object : Substitution) (values : List (String × Float))
  | compare (c : Comparison) (u v : Substitution)
  | declare (name : String)
  /-- Sets other options. -/
  | adjust (o : Options)
  /-- Puts the generator into any state, as drawing from it does. -/
  | drawn (r : Random)

/-- The environment after an operation. -/
def operate (env : Environment) : Operation → Environment
  | .request request => (env.perform request).2
  | .read mode source => (env.read mode source).2
  | .register e => env.register e
  | .evaluate object values => (env.evaluate object values).2
  | .compare c u v => (env.compare c u v).2
  | .declare name => env.addVariable name
  | .adjust o => { env with options := o }
  | .drawn r => { env with generator := r }

/-- The environment after several operations, one after another. -/
def after (env : Environment) (ops : List Operation) : Environment := ops.foldl operate env

/-- The operation defines a function. -/
def Operation.Defines (f : String) : Operation → Prop
  | .request (.function name _ _) => name = f
  | _ => False

instance (f : String) (op : Operation) : Decidable (op.Defines f) := by
  unfold Operation.Defines
  split <;> infer_instance

/-- The operation asks for an expression, its value or the comparison of two expressions. -/
def Operation.isQuestion : Operation → Bool
  | .read _ _ | .evaluate _ _ | .compare _ _ _ => true
  | _ => false

/-- A formula as it is read at first, with the names of the objects bound. -/
def reading (env : Environment) (mode : ReadingMode) (source : String) : Expr :=
  Reading.read { negativeNumbers := env.options.negativeNumbers, noDecimals := mode.noDecimals }
    env.names source

/-- A formula that can be read, or an expression. -/
def readable? (env : Environment) (mode : ReadingMode) : Substitution → Option Expr
  | .text source =>
    if (env.reading mode source).hasIssue then none else some (env.reading mode source)
  | .expr e => some e

/-- The formulas of a question that can be read, and its expressions. References in a formula to
evaluate are replaced first. -/
def Operation.formulas (env : Environment) : Operation → List Expr
  | .read mode source => (env.readable? mode (.text source)).toList
  | .evaluate (.text source) _ => (env.readable? {} (.text (env.decode source false))).toList
  | .evaluate (.expr e) _ => [e]
  | .compare _ u v => (env.readable? {} u).toList ++ (env.readable? {} v).toList
  | _ => []

/-! ## Each operation keeps the meanings -/

theorem read_snd_eq (env : Environment) (mode : ReadingMode) (source : String) :
    (env.read mode source).2 = (env.readable? mode (.text source)).elim env env.register := by
  unfold read readable? reading
  dsimp only
  split <;> rfl

theorem keeps_register (env : Environment) (e : Expr) :
    Keeps env.functions (env.register e).functions :=
  keeps_ensureAll env.functions _ env.generator

theorem keeps_read (env : Environment) (mode : ReadingMode) (source : String) :
    Keeps env.functions (env.read mode source).2.functions := by
  rw [read_snd_eq]
  cases env.readable? mode (.text source) with
  | none => exact .refl _
  | some e => exact keeps_register env e

theorem keeps_readSound (env : Environment) (mode : ReadingMode) (source : String) :
    Keeps env.functions (env.readSound mode source).2.functions := by
  rw [readSound_snd]
  exact keeps_read env mode source

theorem keeps_expr (env : Environment) (s : Substitution) :
    Keeps env.functions (env.expr s).2.functions := by
  cases s with
  | text source => exact keeps_read env {} source
  | expr e => exact keeps_register env e

theorem keeps_choose (env : Environment) (name : String) (c : Parameter.Choice) :
    Keeps env.functions (env.choose name c).2.functions := by
  obtain ⟨n, r, hchoose⟩ | ⟨_, _, _, _, _, -, hchoose⟩ | ⟨source, -, hafter⟩ :=
    choose_cases env name c
  · rw [hchoose]
    exact .refl _
  · rw [hchoose]
    exact .refl _
  · rw [hafter]
    exact keeps_read env { constant := true } source

/-- A request takes no meaning away, unless it is the definition of the function. -/
theorem Performs.get? {request : Request} {answer : Except Stop Unit} {env' : Environment}
    (h : Performs env request answer env') (hdefines : ¬(Operation.request request).Defines f)
    (hd : env.functions.get? f = some d) : env'.functions.get? f = some d := by
  have hchoose {name : String} {c : Parameter.Choice} {chosen : Except Stop Number × Environment}
      (h : env.choose name c = chosen) : chosen.2.functions.get? f = some d :=
    h ▸ keeps_choose env name c f d hd
  have hread {source : String} {sound : Except Failure Expr × Environment}
      (h : env.readSound {} source = sound) : sound.2.functions.get? f = some d :=
    h ▸ keeps_readSound env {} source f d hd
  cases h with
  | parameter h => exact hchoose h
  | parameterStops h => exact hchoose h
  | expression h => exact hread h
  | expressionFails h => exact hread h
  | @function name input formula body env' h =>
    have hne : f ≠ name := fun hf => hdefines hf.symm
    change (Functions.insert _ _ _).get? f = some d
    rw [get?_insert, if_neg hne]
    exact hread h
  | functionFails h => exact hread h
  | @rule catalog equation description oneWay c h => cases catalog <;> exact hd
  | number | numberFails | ruleFails | disable | disableFails => exact hd

/-- Only a definition changes what a function means. -/
theorem get?_operate {op : Operation} (hdefines : ¬op.Defines f)
    (hd : env.functions.get? f = some d) : (env.operate op).functions.get? f = some d := by
  cases op with
  | request request => exact (performs_perform env request).get? hdefines hd
  | read mode source => exact keeps_read env mode source f d hd
  | register e => exact keeps_register env e f d hd
  | evaluate object values => exact keeps_expr env _ f d hd
  | compare c u v => exact ((keeps_expr env u).trans (keeps_expr _ v)) f d hd
  | declare name =>
    change (env.addVariable name).functions.get? f = some d
    unfold addVariable
    split <;> exact hd
  | adjust o => exact hd
  | drawn r => exact hd

/-- A meaning lasts until the function is defined anew. -/
theorem get?_after {ops : List Operation} (hdefines : ∀ op ∈ ops, ¬op.Defines f)
    (hd : env.functions.get? f = some d) : (env.after ops).functions.get? f = some d := by
  induction ops generalizing env with
  | nil => exact hd
  | cons op ops ih =>
    obtain ⟨hop, hops⟩ := List.forall_mem_cons.1 hdefines
    exact ih hops (get?_operate hop hd)

/-! ## What a question draws -/

/-- The environment after drawing stand-ins for those of some functions that have no meaning. -/
def withStandIns (env : Environment) (names : List String) : Environment :=
  let (drawn, generator) := StandIn.drawAll (env.functions.unknown names) env.generator
  { env with functions := ⟨drawn.reverse ++ env.functions.entries⟩, generator := generator }

theorem withStandIns_eq (env : Environment) (names : List String) :
    env.withStandIns names =
      { env with
        functions := (env.functions.ensureAll names env.generator).1
        generator := (env.functions.ensureAll names env.generator).2 } := by
  rw [withStandIns, ensureAll_eq]

theorem withStandIns_of_known {names : List String}
    (h : ∀ name ∈ names, (env.functions.get? name).isSome = true) :
    env.withStandIns names = env := by
  rw [withStandIns, unknown_of_known h]
  rfl

theorem register_eq (env : Environment) (e : Expr) : env.register e = env.withStandIns e.calls := by
  rw [withStandIns_eq, ← Expr.called_eq_calls]
  rfl

/-- Drawing for some functions and then for others is drawing for all of them in a row. -/
theorem withStandIns_append (env : Environment) (names more : List String) :
    (env.withStandIns names).withStandIns more = env.withStandIns (names ++ more) := by
  have happend : env.functions.ensureAll (names ++ more) env.generator =
      (env.functions.ensureAll names env.generator).1.ensureAll more
        (env.functions.ensureAll names env.generator).2 := List.foldl_append
  simp only [withStandIns_eq, happend]

/-- Asking for an expression draws stand-ins for the calls of its formula. -/
theorem expr_snd (env : Environment) (s : Substitution) :
    (env.expr s).2 = env.withStandIns ((env.readable? {} s).toList.flatMap Expr.calls) := by
  have hregister (e : Expr) : env.register e = env.withStandIns ([e].flatMap Expr.calls) := by
    rw [register_eq, List.flatMap_singleton]
  cases s with
  | text source =>
    refine (read_snd_eq env {} source).trans ?_
    cases env.readable? {} (.text source) with
    | none => exact (withStandIns_of_known (List.forall_mem_nil _)).symm
    | some e => exact hregister e
  | expr e => exact hregister e

/-- Stand-ins change nothing about how a formula is read. -/
theorem readable?_withStandIns (names : List String) (mode : ReadingMode) (s : Substitution) :
    (env.withStandIns names).readable? mode s = env.readable? mode s := by
  cases s <;> rfl

/-- A question draws stand-ins for the calls of its formulas, and nothing else. -/
theorem operate_question {op : Operation} (hop : op.isQuestion = true) :
    env.operate op = env.withStandIns ((op.formulas env).flatMap Expr.calls) := by
  cases op with
  | read mode source =>
    refine (read_snd_eq env mode source).trans ?_
    rw [Operation.formulas]
    cases env.readable? mode (.text source) with
    | none => exact (withStandIns_of_known (List.forall_mem_nil _)).symm
    | some e => rw [Option.elim_some, register_eq, Option.toList_some, List.flatMap_singleton]
  | evaluate object values =>
    cases object with
    | text source => exact expr_snd env (.text (env.decode source false))
    | expr e => exact expr_snd env (.expr e)
  | compare c u v =>
    change ((env.expr u).2.expr v).2 = _
    rw [expr_snd, expr_snd, readable?_withStandIns, withStandIns_append, ← List.flatMap_append]
    rfl
  | request | register | declare | adjust | drawn => cases hop

/-- Whatever is asked of an environment, a function that has a meaning keeps it until it is defined
again. A question draws one stand-in for each function without a meaning that its formulas call, in
the order of the first calls, and changes nothing else; so it changes nothing at all if the formulas
call only functions that have a meaning. -/
theorem meanings_after :
    (∀ (env : Environment) (ops : List Operation) (f : String) (d : Definition),
      env.functions.get? f = some d → (∀ op ∈ ops, ¬op.Defines f) →
        (env.after ops).functions.get? f = some d) ∧
    ∀ (env : Environment) (op : Operation), op.isQuestion = true →
      env.operate op = env.withStandIns ((op.formulas env).flatMap Expr.calls) ∧
      ((∀ e ∈ op.formulas env, ∀ f ∈ e.calls, (env.functions.get? f).isSome = true) →
        env.operate op = env) := by
  refine ⟨fun env ops f d hd hdefines => get?_after hdefines hd, fun env op hop => ?_⟩
  have hdraws : env.operate op = _ := operate_question hop
  refine ⟨hdraws, fun hknown => hdraws.trans (withStandIns_of_known fun f hf => ?_)⟩
  obtain ⟨e, he, hcalls⟩ := List.mem_flatMap.1 hf
  exact hknown e he f hcalls

/-- A definition is kept through a run, and a comparison then draws for the two functions without a
meaning, although one of them is called on both sides. -/
theorem meanings_after_comparison :
    let ops := [.read {} "g(f(x))+h(1)", .request (.parameter "a" ⟨.formula "2/3", none⟩),
      .evaluate (.text "f(\x7b\x7ba\x7d\x7d)") []]
    let env := ((ofSeed 1234).perform (.function "f" "x" "x^2")).2
    let asked := Operation.compare {} (.text "f(p(q(x)))") (.text "q(x)-h(y)+sin(x)")
    env.functions.get? "f" = some (.formula "x" (ofText "x^2")) ∧
      (∀ op ∈ ops, ¬op.Defines "f") ∧
      (env.after ops).functions.get? "f" = some (.formula "x" (ofText "x^2")) ∧
      asked.isQuestion = true ∧
      (env.after ops).operate asked = (env.after ops).withStandIns ["f", "p", "q", "q", "h"] ∧
      (env.after ops).functions.unknown ["f", "p", "q", "q", "h"] = ["p", "q"] := by
  intro ops env asked
  have hf : env.functions.get? "f" = some (.formula "x" (ofText "x^2")) := by decide +kernel
  have hops : ∀ op ∈ ops, ¬op.Defines "f" := by decide +kernel
  have hcalls : (asked.formulas (env.after ops)).flatMap Expr.calls =
      ["f", "p", "q", "q", "h"] := by
    decide +kernel
  have hdraws := (meanings_after.2 (env.after ops) asked rfl).1
  rw [hcalls] at hdraws
  exact ⟨hf, hops, meanings_after.1 env ops "f" _ hf hops, rfl, hdraws, by decide +kernel⟩

end Environment

end Formulary
