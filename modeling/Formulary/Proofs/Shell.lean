import Formulary.Proofs.Reading.Writable
import Formulary.Shell

/-!
# Names that are given in the shell

The shell gives names to numbers and to expressions. It accepts every name of letters, digits and
underscores, whereas in a formula a name starts with a letter. So an accepted name can be written in
a formula exactly if it starts with a letter, and then it refers to the object that has got it
(`named_readable_iff`).
-/

namespace Formulary

/-- The name that a command gives to an object. -/
def Command.named? : Command → Option String
  | .letNumber name _ | .letExpression name _ => some name
  | _ => none

/-- The object that has got its name by a command. -/
def Command.registered? (env : Environment) : Command → Option Expr
  | .letNumber name _ => (env.parameter? name).map .number
  | .letExpression name _ => env.expression? name
  | _ => none

namespace Shell

/-- The shell accepts a name that has only letters, digits and underscores, and at least one of
them. -/
def Accepts (name : String) : Prop := name ≠ "" ∧ ∀ c ∈ name.toList, isNamePart c = true

theorem accepts_of_assignment {usage name value : String} {cs : List Char}
    (h : assignment usage cs = .ok (name, value)) : Accepts name := by
  unfold assignment at h
  split at h
  · cases h
  · dsimp only at h
    split at h
    · cases h
    · rename_i hvalid
      cases h
      simpa [Accepts] using hvalid

/-- The two commands that give names take them from an assignment. -/
theorem exists_assignment {word name : String} {rest : List Char} {c : Command}
    (hcommand : command word rest = .ok c) (hname : c.named? = some name) :
    ∃ usage value, assignment usage rest = .ok (name, value) := by
  have named {usage : String} {f : String × String → Command}
      (hf : ∀ p, (f p).named? = some p.1) (h : (assignment usage rest).map f = .ok c) :
      ∃ usage value, assignment usage rest = .ok (name, value) := by
    cases hassign : assignment usage rest with
    | error m => simp [hassign, Except.map] at h
    | ok p =>
      rw [hassign] at h
      cases h
      rw [hf] at hname
      cases hname
      exact ⟨usage, p.2, hassign⟩
  have unnamed {f : String × String → Command} (hf : ∀ p, (f p).named? = none)
      (h : (pair rest).map f = .ok c) : False := by
    cases hpair : pair rest with
    | error m => simp [hpair, Except.map] at h
    | ok p =>
      rw [hpair] at h
      cases h
      rw [hf] at hname
      cases hname
  unfold command at hcommand
  dsimp only at hcommand
  split at hcommand
  -- `let` and `expr`
  case h_10 | h_12 => exact named (fun _ => rfl) hcommand
  -- `compare` and `shape`
  case h_7 | h_8 => exact (unnamed (fun _ => rfl) hcommand).elim
  -- `d` and `var`, which can be incomplete
  case h_3 | h_11 =>
    split at hcommand <;> cases hcommand
    cases hname
  case h_14 => cases hcommand
  all_goals
    cases hcommand
    cases hname

theorem accepts_of_parse {line name : String} {c : Command} (hline : parse line = .ok c)
    (hname : c.named? = some name) : Accepts name := by
  unfold parse at hline
  split at hline
  · obtain ⟨usage, value, hassign⟩ := exists_assignment hline hname
    exact accepts_of_assignment hassign
  · cases hline
    cases hname

end Shell

namespace Token

/-- A name that the shell accepts is a single name token if and only if it starts with a letter. -/
theorem isName_iff_of_accepts {name : String} (h : Shell.Accepts name) :
    IsName name ↔ name.toList.head?.any Char.isAlpha = true := by
  obtain ⟨hne, hparts⟩ := h
  constructor
  · intro hname
    obtain ⟨c, cs, hchars, halpha, -⟩ := hname.chars
    rw [hchars]
    exact halpha
  · intro hfirst
    cases hchars : name.toList with
    | nil => simp [hchars] at hfirst
    | cons c cs =>
      rw [hchars] at hfirst hparts
      have hrun : run isNamePart cs = cs.length :=
        run_eq_length.2 fun d hd => hparts d (List.mem_cons_of_mem _ hd)
      refine isName_of_chars hchars hfirst ?_
      rw [nameLength, hrun, List.drop_length]
      rfl

end Token

namespace Environment

variable {env env' : Environment} {name : String} {e : Expr}

theorem lookup_put {α : Type} (objects : List (String × α)) (name : String) (object : α) :
    (put objects name object).lookup name = some object := by
  rw [put, List.lookup_cons_self]

theorem parameter?_of_addNumber {n : Number} (h : env.addNumber name e = (.ok n, env')) :
    env'.parameter? name = some n := by
  unfold addNumber at h
  split at h
  · cases h
    exact lookup_put env.parameters name n
  · cases h

theorem expression?_of_addExpression {formula : String}
    (h : env.addExpression name formula = (.ok e, env')) : env'.expression? name = some e := by
  unfold addExpression at h
  split at h
  · cases h
    exact lookup_put _ name e
  · cases h

/-- The names of objects are bound when a formula is read. -/
theorem mem_names_of_object? (h : env.object? name = some e) : name ∈ env.names := by
  have hmem {α : Type} {objects : List (String × α)} {object : α}
      (hlookup : objects.lookup name = some object) : name ∈ objects.map (·.1) := by
    obtain ⟨before, after, rfl, -⟩ := List.lookup_eq_some_iff.1 hlookup
    simp
  unfold object? at h
  unfold names
  split at h
  · rename_i hparameter
    exact List.mem_append_left _ (List.mem_append_left _ (hmem hparameter))
  · rename_i hexpression
    exact List.mem_append_left _ (List.mem_append_right _ (hmem hexpression))
  · split at h
    · rename_i hdeclared
      exact List.mem_append_right _ (List.contains_iff_mem.1 hdeclared)
    · cases h

/-- A bound name is read as a reference to the object that has it. -/
theorem read_name (hname : Token.IsName name) (hbound : name ∈ env.names) :
    env.read {} name = (.var name, env) := by
  have hread (settings : Reading.Settings) : Reading.read settings env.names name = .var name := by
    rw [Reading.read, hname]
    simp [Reading.group, Reading.strip, Reading.elements, Reading.nameParts, hbound,
      Reading.pushParts, Reading.State.pushOperand, Reading.State.finish, Reading.State.reduceAll,
      Reading.State.reduceUntil]
  unfold read
  dsimp only
  have hissue : (Expr.var name).hasIssue = false := rfl
  have hflatten : (Expr.var name).flatten = .var name := rfl
  rw [hread, hissue, if_neg Bool.false_ne_true, if_neg Bool.false_ne_true, hflatten, ite_self]
  rfl

end Environment

namespace Shell

open Environment

variable {line name text : String} {c : Command} {env env' : Environment}

/-- Where a command goes through, what it tells about went through. -/
theorem exists_of_failOn {α : Type} {source : String} {answer : Except Failure α × Environment}
    {tell : α → String} (h : (failOn source (answer.1.map tell), answer.2) = (.ok text, env')) :
    ∃ a, answer = (.ok a, env') ∧ text = tell a := by
  obtain ⟨result, env₂⟩ := answer
  obtain ⟨htext, rfl⟩ := Prod.ext_iff.1 h
  cases result with
  | error failure => cases htext
  | ok a =>
    cases htext
    exact ⟨a, rfl, rfl⟩

/-- A command that gives a name and goes through puts the object it tells under this name. Only the
value of a parameter comes before it. -/
theorem registered?_of_run (hname : c.named? = some name) (hrun : run env c = (.ok text, env')) :
    ∃ e, c.registered? env' = some e ∧ text = name ++ " = " ++ e.text ∧
      env'.object? name = some (((env'.parameter? name).map .number).getD e) := by
  cases c with
  | letNumber _ value =>
    cases hname
    unfold run at hrun
    dsimp only at hrun
    split at hrun
    · obtain ⟨n, hadd, htext⟩ := exists_of_failOn hrun
      have hparameter := parameter?_of_addNumber hadd
      refine ⟨.number n, congrArg (Option.map Expr.number) hparameter, htext, ?_⟩
      unfold object?
      rw [hparameter]
      rfl
    · cases hrun
  | letExpression _ formula =>
    cases hname
    obtain ⟨e, hadd, htext⟩ := exists_of_failOn hrun
    have hexpression := expression?_of_addExpression hadd
    refine ⟨e, hexpression, htext, ?_⟩
    unfold object?
    rw [hexpression]
    cases env'.parameter? name <;> rfl
  | _ => cases hname

/-- Every accepted name that starts with a letter is a name token, and after the command has gone
through, a formula of this name alone is a reference to the object that has got it. Of the other
names none is a name token. -/
theorem named_readable_iff (hline : parse line = .ok c) (hname : c.named? = some name) :
    (Token.IsName name ∧ ∀ env env' text, run env c = (.ok text, env') →
      env'.read {} name = (.var name, env') ∧
      ∃ e, c.registered? env' = some e ∧ text = name ++ " = " ++ e.text ∧
        env'.object? name = some (((env'.parameter? name).map .number).getD e)) ↔
    name.toList.head?.any Char.isAlpha = true := by
  rw [← Token.isName_iff_of_accepts (accepts_of_parse hline hname)]
  refine ⟨And.left, fun hletter => ⟨hletter, fun env env' text hrun => ?_⟩⟩
  obtain ⟨e, hregistered, htext, hobject⟩ := registered?_of_run hname hrun
  exact ⟨read_name hletter (mem_names_of_object? hobject), e, hregistered, htext, hobject⟩

/-- A name with a digit and an underscore that starts with a letter. -/
theorem named_readable_v_1 :
    let answer := run (ofSeed 1234) (.letExpression "v_1" "x/2")
    parse ":expr v_1 = x/2" = .ok (.letExpression "v_1" "x/2") ∧
      answer.1 = .ok "v_1 = x/2" ∧ answer.2.read {} "v_1" = (.var "v_1", answer.2) := by
  intro answer
  have hparse : parse ":expr v_1 = x/2" = .ok (.letExpression "v_1" "x/2") := by decide +kernel
  have hanswer : answer.1 = .ok "v_1 = x/2" := by decide +kernel
  obtain ⟨-, hread⟩ := (named_readable_iff hparse rfl).2 (by decide)
  exact ⟨hparse, hanswer, (hread _ _ _ (Prod.ext hanswer rfl)).1⟩

/-- The name `2` is accepted, but the formula `2` is the number two and not the parameter. -/
theorem digit_not_readable :
    let answer := run (ofSeed 1234) (.letNumber "2" "5")
    parse ":let 2 = 5" = .ok (.letNumber "2" "5") ∧ ¬Token.IsName "2" ∧
      answer.1 = .ok "2 = 5" ∧ answer.2.object? "2" = some (.ofInt 5) ∧
      (answer.2.read {} "2").1 = .ofInt 2 := by
  refine ⟨?_, ?_, ?_, ?_, ?_⟩ <;> decide +kernel

end Shell

end Formulary
