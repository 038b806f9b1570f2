import Udroid.Devil.Remote

/-!
# Instrumentation

`StartInstrumentation` puts the package name into a parameter of the shell, and the parameter into
every argument that has the name in it, to keep the line short.

- `startInstrumentation`: the function.
- `does_shrunk`: a line that was shrunk does what the arguments say.
- `startInstrumentation_runs`: `am` is run with the arguments as they were.
-/

namespace Udroid.Devil

open Udroid.Unix Udroid.Unix.Shell

variable {σ : Type} {M : Machine σ} {p : Process} {k n m : Nat} {w : σ}

/-! ## Section 1: The function -/

/-- What is to be instrumented, and how. -/
structure Instrumentation where
  component : Text
  finish : Bool
  raw : Bool
  extras : List (Text × Text)

/-- The command. -/
def Instrumentation.args (i : Instrumentation) : List Text :=
  ["am".toList, "instrument".toList] ++ (if i.finish then ["-w".toList] else []) ++
    (if i.raw then ["-r".toList] else []) ++
    i.extras.flatMap (fun kv => ["-e".toList, kv.1, kv.2]) ++ [i.component]

/-- `component.split('/')[0]`. -/
def Instrumentation.package (i : Instrumentation) : Text := i.component.takeWhile (· != '/')

/-- The options that `StartInstrumentation` gives to `RunShellCommand`. -/
def instrumentOptions : Options where
  checkReturn := true
  cwd := []
  env := []
  runAs := []
  asRoot := false
  singleLine := false
  largeOutput := true
  rawOutput := false

/-- The line of `StartInstrumentation`. -/
def Instrumentation.snippet (i : Instrumentation) : Text :=
  "p=".toList ++ i.package ++ ';' :: shrinkToSnippet i.args "p".toList i.package

/-- `StartInstrumentation`. -/
def Adb.startInstrumentation (adb : Adb σ) (known : Known) (random : Random)
    (i : Instrumentation) (w : σ) : Result σ Output :=
  if i.package = [] then some (.error .emptySeparator, w)
  else adb.runCommand known instrumentOptions random i.snippet w

/-! ## Section 2: Shrunk lines -/

/-- The end of a list of parts is the end of the last part, or of the separator. -/
theorem shrink_getLast (varName varValue value : Text) :
    ∃ c, (shrink varName varValue value).getLast? = some c ∧ isSpace c = false := by
  have hparts : ∀ parts : List Text,
      (paramText varName).intercalate (parts.map fun x => if x = [] then [] else singleQuote x) = [] ∨
        ∃ c, ((paramText varName).intercalate
          (parts.map fun x => if x = [] then [] else singleQuote x)).getLast? = some c ∧
            isSpace c = false := by
    intro parts
    induction parts with
    | nil => exact Or.inl rfl
    | cons x parts ih =>
      cases parts with
      | nil =>
        by_cases hx : x = []
        · exact Or.inl (by simp [hx])
        · exact Or.inr (by simpa [hx] using singleQuote_getLast x)
      | cons y parts =>
        refine Or.inr ?_
        simp only [List.map_cons, List.intercalate_cons_cons] at ih ⊢
        rcases ih with hnil | ⟨c, hc, hspace⟩
        · rw [hnil, List.append_nil]
          have hquote : (paramText varName).getLast? = some '"' := by
            rw [paramText, List.getLast?_append]
            rfl
          exact ⟨'"', getLast_append_right hquote, by decide⟩
        · exact ⟨c, getLast_append_right hc, hspace⟩
  rw [shrink]
  rcases hparts (splitText varValue value) with hnil | ⟨c, hc, hspace⟩
  · simp only [hnil, if_true]
    exact ⟨'\'', rfl, by decide⟩
  · have hne : (paramText varName).intercalate ((splitText varValue value).map
        fun x => if x = [] then [] else singleQuote x) ≠ [] := by
      intro heq
      rw [heq] at hc
      cases hc
    simp only [if_neg hne]
    exact ⟨c, hc, hspace⟩

/-- A word that has no sign in its value is no assignment. -/
theorem assignment_eq_none {s : State} {w : Word} (h : '=' ∉ value s w) : assignment w = none := by
  have hfrom : ∀ (w : Word) (sofar : Text), '=' ∉ value s w → assignmentFrom sofar w = none := by
    intro w
    induction w with
    | nil => exact fun _ _ => rfl
    | cons seg w ih =>
      intro sofar hw
      cases seg with
      | plain c =>
        have hsplit : value s (.plain c :: w) = c :: value s w := rfl
        rw [hsplit, List.mem_cons, not_or] at hw
        rw [assignmentFrom, if_neg (Ne.symm hw.1)]
        split
        · exact ih _ hw.2
        · rfl
      | _ => rfl
  exact hfrom w [] h

/-- A word that has no reserved word as its value is not reserved. -/
theorem isReserved_eq_false {s : State} {w : Word} (h : value s w ∉ reservedWords) :
    isReserved w = false := by
  rw [isReserved, List.any_eq_false]
  intro r hr heq
  rw [of_decide_eq_true heq, value_plain] at h
  exact h hr

/-- The shell behind the assignment. -/
def withVar (p : Process) (varName varValue : Text) : State := p.start.assign varName varValue

/-- A line that was shrunk, behind the assignment of its parameter. -/
def shrunkLine (varName varValue : Text) (argv : List Text) : Text :=
  varName ++ '=' :: (varValue ++ ';' :: shrinkToSnippet argv varName varValue)

theorem shrunkLine_strip (varName varValue : Text) {argv : List Text} (hne : argv ≠ []) :
    rstrip (shrunkLine varName varValue argv) = shrunkLine varName varValue argv := by
  have hsnippet : ∃ c, (shrinkToSnippet argv varName varValue).getLast? = some c ∧
      isSpace c = false := by
    rw [shrinkToSnippet]
    induction argv with
    | nil => exact absurd rfl hne
    | cons a argv ih =>
      cases argv with
      | nil => simpa using shrink_getLast varName varValue a
      | cons b argv =>
        obtain ⟨c, hc, hspace⟩ := ih (List.cons_ne_nil b argv)
        simp only [List.map_cons, List.intercalate_cons_cons] at hc ⊢
        exact ⟨c, getLast_append_right hc, hspace⟩
  obtain ⟨c, hc, hspace⟩ := hsnippet
  refine rstrip_of_getLast ?_ hspace
  have hsplit : shrunkLine varName varValue argv =
      (varName ++ '=' :: varValue ++ [';']) ++ shrinkToSnippet argv varName varValue := by
    simp [shrunkLine]
  rw [hsplit]
  exact getLast_append_right hc

/-- It does what the arguments say, in a shell that has the parameter. -/
theorem does_shrunk {varName varValue name : Text} {args : List Text} {out : Outcome σ}
    (hvar : isName varName = true) (hne : varValue ≠ []) (hsafe : ∀ c ∈ varValue, isSafe c = true)
    (hname : name ∉ reservedWords) (hsign : '=' ∉ name)
    (h : call M n (name :: args) (withVar p varName varValue).proc w = some out) :
    Does M (n + 1) (shrunkLine varName varValue (name :: args)) p w out := by
  have hvalue : ∀ t, value (withVar p varName varValue) (shrinkWord varName varValue t) = t :=
    value_shrinkWord hne (if_pos rfl)
  -- the first command is the assignment
  have hset : Adds (varName ++ '=' :: varValue)
      (varName.map .plain ++ .plain '=' :: varValue.map .plain) := by
    have hequals : Adds ['='] [.plain '='] := adds_safe (by decide) (by decide)
    exact (adds_safe (isName_spec hvar).1 (isName_spec hvar).2).append
      (hequals.append (adds_safe hne hsafe))
  have hassign := assignment_name hvar (varValue.map .plain)
  have hfree : isReserved (varName.map .plain ++ .plain '=' :: varValue.map .plain) = false :=
    isReserved_of_sign (by simp)
  -- the second one are the arguments
  have hargs : Line (shrinkToSnippet (name :: args) varName varValue)
      (((name :: args).map (shrinkWord varName varValue)).map .word) := by
    refine line_words ?_
    rw [List.forall₂_map_left_iff, List.forall₂_map_right_iff]
    exact List.forall₂_same.mpr fun t _ => adds_shrink hvar varValue t
  have hreserved : isReserved (shrinkWord varName varValue name) = false :=
    isReserved_eq_false (s := withVar p varName varValue) (by rwa [hvalue])
  have hnone : assignment (shrinkWord varName varValue name) = none :=
    assignment_eq_none (s := withVar p varName varValue) (by rwa [hvalue])
  have hreads : Reads .list (shrunkLine varName varValue (name :: args))
      (.seq (.simple [varName.map .plain ++ .plain '=' :: varValue.map .plain])
        (.simple ((name :: args).map (shrinkWord varName varValue)))) := by
    refine ⟨_, ?_, (parses_words hfree []).conj.seq
      (parses_words hreserved (args.map (shrinkWord varName varValue))).conj.list⟩
    have hwhole := Line.append (show ';' ∈ wordEnds by decide) hset.line hargs.semi
    simpa [shrunkLine] using hwhole
  refine ⟨⟨_, hreads⟩, shrunkLine_strip varName varValue (List.cons_ne_nil name args), ?_⟩
  have hvalues : ((name :: args).map (shrinkWord varName varValue)).map
      (value (withVar p varName varValue)) = name :: args := by
    simp [Function.comp_def, hvalue]
  have hfirst : eval M (shell M n)
      (.simple [varName.map .plain ++ .plain '=' :: varValue.map .plain]) p.start w =
        some ([], withVar p varName varValue, w) := by
    rw [eval, runSimple]
    simp only [splitAssignments, hassign, List.map_nil, List.foldl_cons, List.foldl_nil,
      value_plain]
    rfl
  have hsecond : (eval M (shell M n) (.simple ((name :: args).map (shrinkWord varName varValue)))
      (withVar p varName varValue) w).map outcome = some out := by
    rw [List.map_cons] at hvalues ⊢
    rw [eval_simple hnone, hvalues, command_outcome _ _ _ (withVar p varName varValue).proc.start w]
    exact h
  rw [hreads.shell, eval, hfirst, Option.bind_some]
  simpa using hsecond

/-! ## Section 3: Instrumentation -/

/-- For every component whose package name has only safe characters, `am` is run with the
arguments as they were, and the caller gets its output or its status. -/
theorem startInstrumentation_runs (hM : Lawful M) {known : Known} {random : Random}
    {i : Instrumentation} {out : Outcome σ} (hne : i.package ≠ [])
    (hsafe : ∀ c ∈ i.package, isSafe c = true)
    (h : call M m i.args (withVar p "p".toList i.package).proc
      (ready M instrumentOptions random i.snippet w) = some out) (hlt : m + 1 < n) :
    (deviceAdb M p k n).startInstrumentation known random i w =
      some (instrumentOptions.answer random k i.snippet out,
        cleaned M p instrumentOptions random i.snippet out) := by
  rw [Adb.startInstrumentation, if_neg hne]
  have hdoes : Does M (m + 1) i.snippet p (ready M instrumentOptions random i.snippet w) out :=
    does_shrunk (by decide) hne hsafe (by decide) (by decide) h
  exact runCommand_deviceAdb hM rfl hdoes hlt

/-- A component that is its package, with an argument that has its name in it twice. -/
def lamInstrumentation : Instrumentation where
  component := "am/.Test".toList
  finish := true
  raw := false
  extras := [("name".toList, "lamp am".toList)]

theorem startInstrumentation_runs_lam : ∃ files,
    (deviceAdb shelf adbd 1 3).startInstrumentation ⟨true, true⟩ ⟨1, 2, 3⟩ lamInstrumentation
      (fun _ => none) =
        some (.ok (.lines ["am instrument -w -e name lamp am am/.Test".toList]), files) :=
  ⟨_, startInstrumentation_runs (m := 0) lawful_shelf
    (show lamInstrumentation.package ≠ [] by decide)
    (show ∀ c ∈ lamInstrumentation.package, isSafe c = true by decide) rfl
    (show 0 + 1 < 3 by decide)⟩

end Udroid.Devil
