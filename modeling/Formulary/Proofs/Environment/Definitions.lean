import Formulary.Proofs.Environment.Failure
import Formulary.Proofs.Evaluation.Termination

/-!
# Definitions that lead back to themselves

Whatever is defined, read or registered, the functions of an environment stay founded as long as no
formula leads back to the function that it defines (`founded_update_iff`), and then every evaluation
ends (`ends_of_updates`). Nothing asks for that when a function is defined: a function may call
itself, and its evaluation goes on forever (`endless_of_own_call`).
-/

namespace Formulary

namespace Functions

open Relation

variable {fs fs' : Functions} {r : Random} {f name input : String} {body : Expr}

theorem get?_insert (fs : Functions) (name : String) (d : Definition) (f : String) :
    (fs.insert name d).get? f = if f = name then some d else fs.get? f := by
  rw [get?, insert, List.lookup_cons, lookup_filter_ne]
  by_cases hf : f = name
  · simp [hf]
  · rw [beq_eq_false_iff_ne.2 hf, if_neg hf, if_neg hf]
    rfl

/-- The same functions are defined by the same formulas. -/
def SameFormulas (fs fs' : Functions) : Prop :=
  ∀ f input body, fs'.get? f = some (.formula input body) ↔ fs.get? f = some (.formula input body)

theorem SameFormulas.trans {fs'' : Functions} (h : SameFormulas fs fs') (h' : SameFormulas fs' fs'') :
    SameFormulas fs fs'' := fun f input body => (h' f input body).trans (h f input body)

theorem SameFormulas.below_eq (h : SameFormulas fs fs') : fs'.Below = fs.Below := by
  funext g f
  have hcalls : fs'.Below g f ↔ fs.Below g f :=
    mem_called.trans ((exists₂_congr fun input body => and_congr_left' (h f input body)).trans
      mem_called.symm)
  exact propext hcalls

theorem SameFormulas.founded_iff (h : SameFormulas fs fs') : fs'.Founded ↔ fs.Founded := by
  constructor
  · intro hfs
    exact ⟨h.below_eq ▸ hfs.wellFounded, fun hget => hfs.disentangled ((h _ _ _).2 hget)⟩
  · intro hfs
    exact ⟨h.below_eq ▸ hfs.wellFounded, fun hget => hfs.disentangled ((h _ _ _).1 hget)⟩

/-- A stand-in takes the place of no formula. -/
theorem sameFormulas_ensure (fs : Functions) (name : String) (r : Random) :
    SameFormulas fs (fs.ensure name r).1 := by
  intro f input body
  unfold ensure
  cases hname : fs.get? name with
  | some d => exact Iff.rfl
  | none =>
    dsimp only
    rw [get?_insert]
    by_cases hf : f = name
    · rw [if_pos hf, hf, hname]
      exact iff_of_false nofun nofun
    · rw [if_neg hf]

theorem sameFormulas_ensureAll (fs : Functions) (names : List String) (r : Random) :
    SameFormulas fs (fs.ensureAll names r).1 := by
  induction names generalizing fs r with
  | nil => exact fun _ _ _ => Iff.rfl
  | cons name names ih =>
    rw [ensureAll_cons]
    exact (sameFormulas_ensure fs name r).trans (ih _ _)

/-- A formula that is not the one of the new function is still there. -/
theorem below_define {g : String} (hne : f ≠ name) :
    (fs.define name input body).Below g f ↔ fs.Below g f := by
  unfold Below called define
  rw [get?_insert, if_neg hne]

theorem below_define_self {g : String} :
    (fs.define name input body).Below g name ↔ g ∈ body.called := by
  unfold Below called define
  rw [get?_insert, if_pos rfl]

/-- A definition keeps the functions founded exactly if its formula is disentangled and leads to no
function that leads back to the one it defines. -/
theorem founded_define_iff (h : fs.Founded) :
    (fs.define name input body).Founded ↔
      body.Disentangled ∧ ∀ g ∈ body.called, ¬ ReflTransGen fs.Below name g := by
  constructor
  · intro hdefined
    have hget : (fs.define name input body).get? name = some (.formula input body) := by
      rw [define, get?_insert, if_pos rfl]
    refine ⟨hdefined.disentangled hget, fun g hg hback => ?_⟩
    have hback' : ReflTransGen (fs.define name input body).Below name g := by
      clear hg
      induction hback with
      | refl => exact .refl
      | @tail k g _ hstep ih =>
        by_cases hg : g = name
        · rw [hg]
        · exact ih.tail ((below_define hg).2 hstep)
    have hcircle := TransGen.tail' hback' (below_define_self.2 hg)
    exact hdefined.wellFounded.transGen.irrefl.irrefl name hcircle
  · rintro ⟨hbody, hback⟩
    -- first the functions that do not lead to the new one, then that one, then all others
    have haway (f : String) (hf : ¬ ReflTransGen fs.Below name f) :
        Acc (fs.define name input body).Below f := by
      induction f using h.wellFounded.induction with
      | _ f ih =>
        have hne : f ≠ name := by
          rintro rfl
          exact hf .refl
        refine ⟨f, fun g hg => ?_⟩
        have hbelow := (below_define hne).1 hg
        exact ih g hbelow fun hreach => hf (hreach.tail hbelow)
    have hname : Acc (fs.define name input body).Below name :=
      ⟨name, fun g hg => haway g (hback g (below_define_self.1 hg))⟩
    refine ⟨⟨fun f => ?_⟩, fun {f _ _} hget => ?_⟩
    · induction f using h.wellFounded.induction with
      | _ f ih =>
        by_cases hne : f = name
        · rwa [hne]
        · exact ⟨f, fun g hg => ih g ((below_define hne).1 hg)⟩
    · rw [define, get?_insert] at hget
      split at hget
      · cases hget
        exact hbody
      · exact h.disentangled hget

/-- A formula does not lead back to a function if the functions it calls are among some that call one
another only. -/
theorem not_below_of_closed (names : List String)
    (hclosed : ∀ g ∈ names, ∀ k ∈ fs.called g, k ∈ names) (hname : name ∉ names)
    (hbody : ∀ g ∈ body.called, g ∈ names) :
    ∀ g ∈ body.called, ¬ ReflTransGen fs.Below name g := by
  intro g hg hback
  have hmem := hbody g hg
  clear hg
  induction hback with
  | refl => exact hname hmem
  | tail _ hstep ih => exact ih (hclosed _ hmem _ hstep)

theorem founded_empty : ({} : Functions).Founded where
  wellFounded := ⟨fun f => ⟨f, fun g hg => absurd hg List.not_mem_nil⟩⟩
  disentangled hget := by cases hget

end Functions

namespace Environment

open Evaluation Formulary.Expr Functions

/-- What may give functions a meaning. -/
inductive Update where
  | define (name input formula : String)
  | read (mode : ReadingMode) (source : String)
  | register (e : Expr)

/-- The environment after an update. -/
def update (env : Environment) : Update → Environment
  | .define name input formula => (env.define name input formula).2
  | .read mode source => (env.read mode source).2
  | .register e => env.register e

/-- The environment after several updates, one after another. -/
def updates (env : Environment) (us : List Update) : Environment := us.foldl update env

/-- A formula that is defined is disentangled and leads to no function that leads back to the one it
defines. -/
def Update.Grounded (env : Environment) : Update → Prop
  | .define name _ formula => ∀ body, (env.readSound {} formula).1 = .ok body →
    body.Disentangled ∧ ∀ g ∈ body.called, ¬ Relation.ReflTransGen env.functions.Below name g
  | .read _ _ | .register _ => True

/-- Each of several updates is grounded when its turn comes. -/
def Grounded (env : Environment) : List Update → Prop
  | [] => True
  | u :: us => u.Grounded env ∧ (env.update u).Grounded us

variable {env : Environment} {us : List Update} {b : Bindings} {e : Expr}

theorem sameFormulas_register (env : Environment) (e : Expr) :
    SameFormulas env.functions (env.register e).functions :=
  sameFormulas_ensureAll env.functions _ env.generator

theorem sameFormulas_read (env : Environment) (mode : ReadingMode) (source : String) :
    SameFormulas env.functions (env.read mode source).2.functions := by
  unfold read
  dsimp only
  split
  · exact fun _ _ _ => Iff.rfl
  · exact sameFormulas_register env _

/-- One update keeps the functions founded exactly if it is grounded. -/
theorem founded_update_iff (h : env.functions.Founded) (u : Update) :
    (env.update u).functions.Founded ↔ u.Grounded env := by
  cases u with
  | read mode source => exact iff_of_true ((sameFormulas_read env mode source).founded_iff.2 h) trivial
  | register e => exact iff_of_true ((sameFormulas_register env e).founded_iff.2 h) trivial
  | define name input formula =>
    have hsame : SameFormulas env.functions (env.readSound {} formula).2.functions := by
      rw [readSound_snd]
      exact sameFormulas_read env {} formula
    change (env.define name input formula).2.functions.Founded ↔
      ∀ body, (env.readSound {} formula).1 = .ok body → _
    rw [define]
    generalize env.readSound {} formula = outcome at hsame ⊢
    obtain ⟨answer, after⟩ := outcome
    have hfounded : after.functions.Founded := hsame.founded_iff.2 h
    cases answer with
    | error f =>
      refine iff_of_true hfounded fun body hbody => ?_
      cases hbody
    | ok body =>
      refine (founded_define_iff hfounded).trans ?_
      rw [hsame.below_eq]
      simp

/-- Grounded updates keep the functions founded. -/
theorem founded_updates (h : env.functions.Founded) (hus : env.Grounded us) :
    (env.updates us).functions.Founded := by
  induction us generalizing env with
  | nil => exact h
  | cons u us ih => exact ih ((founded_update_iff h u).2 hus.1) hus.2

/-- After any number of grounded updates every evaluation ends: of every disentangled expression, with
every bindings that have the functions of the environment. It ends within the depth that it starts
with, and more depth gives the same answer. -/
theorem ends_of_updates (hstart : env.functions = {}) (hus : env.Grounded us)
    (hb : b.functions = (env.updates us).functions) (he : e.Disentangled) {depth : Nat}
    (hdepth : Evaluation.depth b e ≤ depth) :
    evaluate? depth b e ≠ .error .exhausted ∧
      evaluate? depth b e = evaluate? (Evaluation.depth b e) b e := by
  have hfounded : b.functions.Founded := by
    rw [hb]
    exact founded_updates (hstart ▸ founded_empty) hus
  exact ends_of_founded hfounded he hdepth

/-- A chain of three functions, the last of them with a stand-in. -/
theorem ends_of_chain :
    ∃ (us : List Update) (b : Bindings), us =
        [.define "g" "x" "x^2+h(x)", .define "f" "x" "g'(x)*sin'(x)", .read {} "k(f(x))"] ∧
      b = { ((ofSeed 1234).updates us).bindings with values := [("y", 3)] } ∧
      (ofSeed 1234).Grounded us ∧
      ∀ depth, Evaluation.depth b (ofText "D(f(x)*y,x,2)") ≤ depth →
        evaluate? depth b (ofText "D(f(x)*y,x,2)") ≠ .error .exhausted ∧
          evaluate? depth b (ofText "D(f(x)*y,x,2)") =
            evaluate? (Evaluation.depth b (ofText "D(f(x)*y,x,2)")) b (ofText "D(f(x)*y,x,2)") := by
  have hgrounded : (ofSeed 1234).Grounded
      [.define "g" "x" "x^2+h(x)", .define "f" "x" "g'(x)*sin'(x)", .read {} "k(f(x))"] := by
    refine ⟨fun body hbody => ?_, fun body hbody => ?_, trivial, trivial⟩
    · have hread : ((ofSeed 1234).readSound {} "x^2+h(x)").1 = .ok (ofText "x^2+h(x)") := by
        decide +kernel
      cases hread.symm.trans hbody
      exact ⟨by decide +kernel,
        not_below_of_closed ["h"] (by decide +kernel) (by decide) (by decide +kernel)⟩
    · have hread : (((ofSeed 1234).update (.define "g" "x" "x^2+h(x)")).readSound {}
          "g'(x)*sin'(x)").1 = .ok (ofText "g'(x)*sin'(x)") := by
        decide +kernel
      cases hread.symm.trans hbody
      exact ⟨by decide +kernel,
        not_below_of_closed ["g", "h"] (by decide +kernel) (by decide) (by decide +kernel)⟩
  refine ⟨_, _, rfl, rfl, hgrounded, fun depth hdepth => ?_⟩
  exact ends_of_updates rfl hgrounded rfl (by decide +kernel) hdepth

/-! ## Functions that lead back to themselves -/

/-- A call without primes is evaluated through the formula of the function. -/
theorem evaluate?_call {f input : String} {body u : Expr} {v : Float}
    (hf : Names.isBuiltin f = false) (hget : b.functions.get? f = some (.formula input body))
    {depth : Nat} (hu : u.evalWith (through depth) b = .ok v) :
    evaluate? depth b (call f 0 u) = through depth (b.bind input v) body := by
  rw [evaluate?_eq, evalWith, hu]
  change (if Names.isBuiltin f then _ else defined (through depth) b f 0 v) = _
  rw [hf, if_neg Bool.false_ne_true, defined, hget]
  rfl

theorem evalWith_bound (again : Bindings → Expr → Outcome) (b : Bindings) (input : String)
    (v : Float) : (var input).evalWith again (b.bind input v) = .ok v := by
  have hvalue : (b.bind input v).value? input = some v := List.lookup_cons_self
  rw [evalWith, name?, hvalue]
  rfl

/-- A formula that is the call of its own function goes through itself at every depth. -/
theorem endless_formula {f input : String} (hf : Names.isBuiltin f = false)
    (hget : b.functions.get? f = some (.formula input (call f 0 (var input)))) (v : Float)
    (depth : Nat) : through depth (b.bind input v) (call f 0 (var input)) = .error .exhausted := by
  induction depth generalizing b with
  | zero => rfl
  | succ depth ih =>
    have hbound : (b.bind input v).functions.get? f =
      some (.formula input (call f 0 (var input))) := hget
    rw [through, evaluate?_call hf hbound (evalWith_bound _ b input v)]
    exact ih hbound

/-- Nothing keeps a function from calling itself, and its value is then never found. -/
theorem endless_of_own_call :
    (ofText "f(1)").Disentangled ∧
      ∀ depth, evaluate? depth ((ofSeed 1234).updates [.define "f" "x" "f(x)"]).bindings
        (ofText "f(1)") = .error .exhausted := by
  have hread : ofText "f(1)" = call "f" 0 (ofInt 1) := by decide +kernel
  have hget : ((ofSeed 1234).updates [.define "f" "x" "f(x)"]).bindings.functions.get? "f" =
      some (.formula "x" (call "f" 0 (var "x"))) := by decide +kernel
  refine ⟨by decide +kernel, fun depth => ?_⟩
  have hbuiltin : Names.isBuiltin "f" = false := by decide +kernel
  have hone (b : Bindings) : (ofInt 1).evalWith (through depth) b = .ok (Number.ofInt 1).value := by
    rw [ofInt, evalWith]
  rw [hread, evaluate?_call hbuiltin hget (hone _)]
  exact endless_formula hbuiltin hget _ depth

end Environment

end Formulary
