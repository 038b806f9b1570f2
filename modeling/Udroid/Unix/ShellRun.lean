import Udroid.Unix.ShellWords

/-!
# What a shell line does

The commands of a line, and what they do: simple commands with assignments, lists with `;` and
`&&`, subshells, and output into a file.  Programs are not fixed: a machine says what each of them
does with its arguments, its process and the state of the machine.

- `parse`, `Parses`: the commands of a list of tokens, and the rules to read them by.
- `eval`, `shell`: what the commands do; `sh` reads a line of its own.
- `Reads.shell`: a line that reads as a command does what the command does.
-/

namespace Udroid.Unix.Shell

/-! ## Section 1: Commands -/

inductive Cmd where
  | simple (ws : List Word)
  | sub (body : Cmd)
  | into (c : Cmd) (path : Word)
  | both (a b : Cmd)
  | seq (a b : Cmd)

/-- What the grammar looks for: one command, commands with `&&`, or a list of those. -/
inductive Level where
  | unit
  | conj
  | list
deriving DecidableEq

/-- Words that start something else than a simple command, if they are not quoted. -/
def reservedWords : List Text :=
  ["case", "do", "done", "elif", "else", "esac", "fi", "for", "function", "if", "in", "select",
    "then", "time", "until", "while"].map String.toList

def isReserved (w : Word) : Bool := reservedWords.any fun r => decide (w = r.map .plain)

/-- The words that the tokens start with, and the other tokens. -/
def takeWords : List Tok → List Word × List Tok
  | .word w :: rest => (w :: (takeWords rest).1, (takeWords rest).2)
  | toks => ([], toks)

/-- A command, and where its output goes. -/
def redirected (c : Cmd) : List Tok → Option (Cmd × List Tok)
  | .into :: .word w :: rest => some (.into c w, rest)
  | .into :: _ => none
  | rest => some (c, rest)

/-- The command that the tokens start with, and the other tokens. -/
def parse : Nat → Level → List Tok → Option (Cmd × List Tok)
  | 0, _, _ => none
  | n + 1, .list, toks =>
      match parse n .conj toks with
      | some (a, .semi :: rest) => (parse n .list rest).map fun r => (.seq a r.1, r.2)
      | r => r
  | n + 1, .conj, toks =>
      match parse n .unit toks with
      | some (a, .andIf :: rest) => (parse n .conj rest).map fun r => (.both a r.1, r.2)
      | r => r
  | n + 1, .unit, .left :: toks =>
      match parse n .list toks with
      | some (c, .right :: rest) => redirected (.sub c) rest
      | _ => none
  | _ + 1, .unit, .word w :: toks =>
      if isReserved w then none
      else redirected (.simple (w :: (takeWords toks).1)) (takeWords toks).2
  | _ + 1, .unit, _ => none

/-- The commands of a line. -/
def read (text : Text) : Option Cmd :=
  match (lex text).bind fun toks => parse (3 * toks.length) .list toks with
  | some (c, []) => some c
  | _ => none

/-- What may stand behind. -/
def Level.ends : Level → List Tok
  | .unit => [.andIf, .semi, .right]
  | .conj => [.semi, .right]
  | .list => [.right]

/-- How many steps the levels below take for themselves. -/
def Level.above : Level → Nat
  | .unit => 2
  | .conj => 1
  | .list => 0

/-- The tokens are those of the command, whatever stands behind. -/
def Parses (l : Level) (toks : List Tok) (c : Cmd) : Prop :=
  toks ≠ [] ∧ ∀ n rest, 3 * toks.length ≤ n + l.above → (∀ t ∈ rest.head?, t ∈ l.ends) →
    parse n l (toks ++ rest) = some (c, rest)

theorem takeWords_append (ws : List Word) {rest : List Tok} (h : ∀ w, rest.head? ≠ some (.word w)) :
    takeWords (ws.map .word ++ rest) = (ws, rest) := by
  induction ws with
  | nil =>
    cases rest with
    | nil => rfl
    | cons t rest =>
      cases t with
      | word w => exact absurd rfl (h w)
      | _ => rfl
  | cons w ws ih => simp [takeWords, ih]

theorem redirected_of_ends (c : Cmd) {rest : List Tok}
    (h : ∀ t ∈ rest.head?, t ∈ Level.unit.ends) : redirected c rest = some (c, rest) := by
  cases rest with
  | nil => rfl
  | cons t rest =>
    have ht := h t rfl
    simp only [Level.ends, List.mem_cons, List.not_mem_nil, or_false] at ht
    rcases ht with rfl | rfl | rfl <;> rfl

/-- Words are a simple command. -/
theorem parses_words {w : Word} (hw : isReserved w = false) (ws : List Word) :
    Parses .unit ((w :: ws).map .word) (.simple (w :: ws)) := by
  refine ⟨by simp, fun n rest hn hrest => ?_⟩
  obtain ⟨n, rfl⟩ : ∃ m, n = m + 1 := by
    refine ⟨n - 1, ?_⟩
    simp only [List.length_map, List.length_cons, Level.above] at hn
    omega
  have hnot : ∀ v, rest.head? ≠ some (.word v) := by
    intro v hv
    have hmem := hrest _ hv
    simp [Level.ends] at hmem
  simp only [List.map_cons, List.cons_append, parse, hw, Bool.false_eq_true, if_false,
    takeWords_append ws hnot]
  exact redirected_of_ends _ hrest

theorem Parses.sub {toks : List Tok} {c : Cmd} (h : Parses .list toks c) :
    Parses .unit (.left :: toks ++ [.right]) (.sub c) := by
  refine ⟨by simp, fun n rest hn hrest => ?_⟩
  obtain ⟨n, rfl⟩ : ∃ m, n = m + 1 := by
    refine ⟨n - 1, ?_⟩
    simp only [List.length_append, List.length_cons, List.length_nil, Level.above] at hn
    omega
  have hbody := h.2 n (.right :: rest) (by
    simp only [List.length_append, List.length_cons, List.length_nil, Level.above] at hn ⊢
    omega) (by simp [Level.ends])
  simp only [List.cons_append, List.append_assoc, List.nil_append, parse, hbody]
  exact redirected_of_ends _ hrest

/-- A subshell whose output goes into a file. -/
theorem Parses.sub_into {toks : List Tok} {c : Cmd} (h : Parses .list toks c) (w : Word) :
    Parses .unit (.left :: toks ++ [.right, .into, .word w]) (.into (.sub c) w) := by
  refine ⟨by simp, fun n rest hn hrest => ?_⟩
  obtain ⟨n, rfl⟩ : ∃ m, n = m + 1 := by
    refine ⟨n - 1, ?_⟩
    simp only [List.length_append, List.length_cons, List.length_nil, Level.above] at hn
    omega
  have hbody := h.2 n (.right :: .into :: .word w :: rest) (by
    simp only [List.length_append, List.length_cons, List.length_nil, Level.above] at hn ⊢
    omega) (by simp [Level.ends])
  simp only [List.cons_append, List.append_assoc, List.nil_append, parse, hbody, redirected]

theorem Parses.length_pos {l : Level} {toks : List Tok} {c : Cmd} (h : Parses l toks c) :
    0 < toks.length :=
  List.length_pos_iff.mpr h.1

/-- One command is a list with `&&`. -/
theorem Parses.conj {toks : List Tok} {c : Cmd} (h : Parses .unit toks c) :
    Parses .conj toks c := by
  refine ⟨h.1, fun n rest hn hrest => ?_⟩
  have hpos := h.length_pos
  obtain ⟨n, rfl⟩ : ∃ m, n = m + 1 := by
    refine ⟨n - 1, ?_⟩
    simp only [Level.above] at hn
    omega
  have hunit := h.2 n rest (by simp only [Level.above] at hn ⊢; omega) (by
    intro t ht
    have hmem := hrest t ht
    simp only [Level.ends, List.mem_cons] at hmem ⊢
    exact Or.inr hmem)
  rw [parse, hunit]
  cases rest with
  | nil => rfl
  | cons t rest =>
    have ht := hrest t rfl
    simp only [Level.ends, List.mem_cons, List.not_mem_nil, or_false] at ht
    rcases ht with rfl | rfl <;> rfl

/-- And a list with `&&` is a list. -/
theorem Parses.list {toks : List Tok} {c : Cmd} (h : Parses .conj toks c) :
    Parses .list toks c := by
  refine ⟨h.1, fun n rest hn hrest => ?_⟩
  have hpos := h.length_pos
  obtain ⟨n, rfl⟩ : ∃ m, n = m + 1 := by
    refine ⟨n - 1, ?_⟩
    simp only [Level.above] at hn
    omega
  have hconj := h.2 n rest (by simp only [Level.above] at hn ⊢; omega) (by
    intro t ht
    have hmem := hrest t ht
    simp only [Level.ends, List.mem_cons] at hmem ⊢
    exact Or.inr hmem)
  rw [parse, hconj]
  cases rest with
  | nil => rfl
  | cons t rest =>
    have ht := hrest t rfl
    simp only [Level.ends, List.mem_cons, List.not_mem_nil, or_false] at ht
    obtain rfl := ht
    rfl

theorem Parses.both {ta tb : List Tok} {a b : Cmd} (ha : Parses .unit ta a)
    (hb : Parses .conj tb b) : Parses .conj (ta ++ .andIf :: tb) (.both a b) := by
  refine ⟨by simp, fun n rest hn hrest => ?_⟩
  simp only [List.length_append, List.length_cons, Level.above] at hn
  obtain ⟨n, rfl⟩ : ∃ m, n = m + 1 := ⟨n - 1, by omega⟩
  have hfirst := ha.2 n (.andIf :: (tb ++ rest)) (by simp only [Level.above]; omega)
    (by simp [Level.ends])
  have hsecond := hb.2 n rest (by simp only [Level.above]; omega) hrest
  rw [List.append_assoc, List.cons_append, parse, hfirst]
  simp only [hsecond, Option.map_some]

theorem Parses.seq {ta tb : List Tok} {a b : Cmd} (ha : Parses .conj ta a)
    (hb : Parses .list tb b) : Parses .list (ta ++ .semi :: tb) (.seq a b) := by
  refine ⟨by simp, fun n rest hn hrest => ?_⟩
  simp only [List.length_append, List.length_cons, Level.above] at hn
  obtain ⟨n, rfl⟩ : ∃ m, n = m + 1 := ⟨n - 1, by omega⟩
  have hfirst := ha.2 n (.semi :: (tb ++ rest)) (by simp only [Level.above]; omega)
    (by simp [Level.ends])
  have hsecond := hb.2 n rest (by simp only [Level.above]; omega) hrest
  rw [List.append_assoc, List.cons_append, parse, hfirst]
  simp only [hsecond, Option.map_some]

/-- A piece of text that reads as a command. -/
def Reads (l : Level) (text : Text) (c : Cmd) : Prop := ∃ toks, Line text toks ∧ Parses l toks c

theorem Reads.conj {text : Text} {c : Cmd} (h : Reads .unit text c) : Reads .conj text c := by
  obtain ⟨toks, hline, hparse⟩ := h
  exact ⟨toks, hline, hparse.conj⟩

theorem Reads.list {text : Text} {c : Cmd} (h : Reads .conj text c) : Reads .list text c := by
  obtain ⟨toks, hline, hparse⟩ := h
  exact ⟨toks, hline, hparse.list⟩

theorem Reads.read {text : Text} {c : Cmd} (h : Reads .list text c) : read text = some c := by
  obtain ⟨toks, hline, -, hparse⟩ := h
  have hwhole := hparse (3 * toks.length) [] (by simp [Level.above]) (by simp)
  rw [List.append_nil] at hwhole
  rw [Shell.read, hline.lex, Option.bind_some, hwhole]

/-! ## Section 2: Words with their values -/

/-- What a program is started with. -/
structure Process where
  cwd : Text
  env : Text → Option Text
  user : Text

/-- A shell: the process it is, its parameters, exported or not, and `$?`. -/
structure State where
  proc : Process
  vars : Text → Option Text
  status : Nat

/-- A shell that a process starts as. -/
def Process.start (p : Process) : State := ⟨p, p.env, 0⟩

def decimal (n : Nat) : Text := Nat.toDigits 10 n

def Seg.value (s : State) : Seg → Text
  | .plain c => [c]
  | .quoted c => [c]
  | .param name => (s.vars name).getD []
  | .status => decimal s.status

/-- A word as a command gets it.  Nothing in this fragment is split into fields or taken for a
file name pattern. -/
def value (s : State) (w : Word) : Text := w.flatMap (Seg.value s)

/-- The name and what stands behind the sign, if the word is an assignment. -/
def assignmentFrom (sofar : Text) : Word → Option (Text × Word)
  | .plain c :: rest =>
      if c = '=' then if isName sofar then some (sofar, rest) else none
      else if isNameChar c then assignmentFrom (sofar ++ [c]) rest
      else none
  | _ => none

def assignment (w : Word) : Option (Text × Word) := assignmentFrom [] w

/-- The assignments at the start of the words, and the other words. -/
def splitAssignments : List Word → List (Text × Word) × List Word
  | [] => ([], [])
  | w :: ws =>
      match assignment w with
      | some a => (a :: (splitAssignments ws).1, (splitAssignments ws).2)
      | none => ([], w :: ws)

/-- An assignment in the shell itself; a name that is exported stays so. -/
def State.assign (s : State) (name : Text) (v : Text) : State :=
  { s with
    vars := fun n => if n = name then some v else s.vars n
    proc := { s.proc with
      env := fun n => if n = name ∧ (s.proc.env n).isSome then some v else s.proc.env n } }

/-- An assignment before a command, which the command gets with its process. -/
def Process.export (p : Process) (name : Text) (v : Text) : Process :=
  { p with env := fun n => if n = name then some v else p.env n }

/-! ## Section 3: What commands do -/

/-- What a command printed, its status, and the state of the machine behind it. -/
structure Outcome (σ : Type) where
  out : Text
  status : Nat
  world : σ

/-- The machine that the shell runs on. -/
structure Machine (σ : Type) where
  /-- What everything does that is not modelled here. -/
  prog : List Text → Process → σ → Outcome σ
  /-- Where `cd` leads. -/
  chdir : σ → Process → Text → Option Text
  chdirError : Text → Text
  /-- The process that `run-as` and `su` start. -/
  asPackage : Text → Process → Process
  asRoot : Process → Process
  readFile : σ → Text → Option Text
  writeFile : σ → Text → Text → σ

variable {σ : Type}

/-- What `run-as` and `su` run in the end, and the process that it is. -/
def started (M : Machine σ) : List Text → Process → List Text × Process
  | name :: arg :: args, p =>
      if name = "run-as".toList then started M args (M.asPackage arg p)
      else if name = "su".toList ∧ (arg = "0".toList ∨ arg = "-c".toList) then
        started M args (M.asRoot p)
      else (name :: arg :: args, p)
  | argv, p => (argv, p)

/-- The lines that `sh` is given. -/
def scriptOf (M : Machine σ) (w : σ) : List Text → Option Text
  | [name, path] => if name = "sh".toList then M.readFile w path else none
  | [name, opt, script] => if name = "sh".toList ∧ opt = "-c".toList then some script else none
  | _ => none

/-- A program with its arguments; `sh` is what reads a line. -/
def exec (M : Machine σ) (sh : Text → Process → σ → Option (Outcome σ)) (argv : List Text)
    (p : Process) (w : σ) : Option (Outcome σ) :=
  match scriptOf M w (started M argv p).1 with
  | some script => sh script (started M argv p).2 w
  | none => some (M.prog (started M argv p).1 (started M argv p).2 w)

/-- `echo` prints this as it is. -/
def PlainEcho (arg : Text) : Prop := '\\' ∉ arg ∧ arg.head? ≠ some '-'

instance (arg : Text) : Decidable (PlainEcho arg) := inferInstanceAs (Decidable (_ ∧ _))

/-- A command that the shell starts as a process. -/
def external (M : Machine σ) (sh : Text → Process → σ → Option (Outcome σ)) (argv : List Text)
    (p : Process) (s : State) (w : σ) : Option (Text × State × σ) :=
  (exec M sh argv p w).map fun o => (o.out, { s with status := o.status }, o.world)

/-- The commands that the shell does itself. -/
def builtin (M : Machine σ) (argv : List Text) (p : Process) (s : State) (w : σ) :
    Option (Text × State × σ) :=
  match argv with
  | [name, arg] =>
      if name = "cd".toList then
        match M.chdir w p arg with
        | some dir => some ([], { s with proc := { s.proc with cwd := dir }, status := 0 }, w)
        | none => some (M.chdirError arg, { s with status := 1 }, w)
      else if name = "echo".toList ∧ PlainEcho arg then
        some (arg ++ ['\n'], { s with status := 0 }, w)
      else none
  | _ => none

/-- A command with its arguments, as the shell runs it: what it prints, the shell behind it and
the state of the machine. -/
def command (M : Machine σ) (sh : Text → Process → σ → Option (Outcome σ)) (argv : List Text)
    (p : Process) (s : State) (w : σ) : Option (Text × State × σ) :=
  match builtin M argv p s w with
  | some r => some r
  | none => external M sh argv p s w

/-- A simple command.  The arguments have their values before the assignments are made. -/
def runSimple (M : Machine σ) (sh : Text → Process → σ → Option (Outcome σ)) (ws : List Word)
    (s : State) (w : σ) : Option (Text × State × σ) :=
  let split := splitAssignments ws
  match split.2.map (value s) with
  | [] =>
      some ([], { split.1.foldl (fun s a => s.assign a.1 (value s a.2)) s with status := 0 }, w)
  | argv => command M sh argv (split.1.foldl (fun p a => p.export a.1 (value s a.2)) s.proc) s w

/-- What a command does in a shell. -/
def eval (M : Machine σ) (sh : Text → Process → σ → Option (Outcome σ)) :
    Cmd → State → σ → Option (Text × State × σ)
  | .simple ws, s, w => runSimple M sh ws s w
  | .sub c, s, w =>
      (eval M sh c s w).map fun r => (r.1, { s with status := r.2.1.status }, r.2.2)
  | .into c path, s, w =>
      (eval M sh c s (M.writeFile w (value s path) [])).map fun r =>
        ([], r.2.1, M.writeFile r.2.2 (value s path) r.1)
  | .both a b, s, w =>
      (eval M sh a s w).bind fun r =>
        if r.2.1.status = 0 then (eval M sh b r.2.1 r.2.2).map fun q => (r.1 ++ q.1, q.2)
        else some r
  | .seq a b, s, w =>
      (eval M sh a s w).bind fun r =>
        (eval M sh b r.2.1 r.2.2).map fun q => (r.1 ++ q.1, q.2)

/-- What is left of a shell when it ends. -/
def outcome (r : Text × State × σ) : Outcome σ := ⟨r.1, r.2.1.status, r.2.2⟩

/-- A shell that reads a line; one of the shells that it starts may start `n` in each other. -/
def shell (M : Machine σ) : Nat → Text → Process → σ → Option (Outcome σ)
  | 0, _, _, _ => none
  | n + 1, text, p, w =>
      (read text).bind fun c => (eval M (shell M n) c p.start w).map outcome

/-! ## Section 4: Rules -/

variable {M : Machine σ} {sh : Text → Process → σ → Option (Outcome σ)}

/-- A line does what it reads as. -/
theorem Reads.shell {text : Text} {c : Cmd} (h : Reads .list text c) (n : Nat) (p : Process)
    (w : σ) : shell M (n + 1) text p w = (eval M (shell M n) c p.start w).map outcome := by
  rw [Shell.shell, h.read, Option.bind_some]

/-- What a shell that is given this command does. -/
def call (M : Machine σ) (n : Nat) (argv : List Text) (p : Process) (w : σ) :
    Option (Outcome σ) :=
  (command M (shell M n) argv p p.start w).map outcome

theorem external_outcome (argv : List Text) (p : Process) (s : State) (w : σ) :
    (external M sh argv p s w).map outcome = exec M sh argv p w := by
  rw [external]
  cases exec M sh argv p w <;> rfl

theorem builtin_outcome (argv : List Text) (p : Process) (s s' : State) (w : σ) :
    (builtin M argv p s w).map outcome = (builtin M argv p s' w).map outcome := by
  unfold builtin
  split
  · split
    · rename_i name arg _
      cases M.chdir w p arg <;> rfl
    · split <;> rfl
  · rfl

/-- The shell around a command is no part of its outcome. -/
theorem command_outcome (argv : List Text) (p : Process) (s s' : State) (w : σ) :
    (command M sh argv p s w).map outcome = (command M sh argv p s' w).map outcome := by
  have hbuiltin := builtin_outcome (M := M) argv p s s' w
  rw [command, command]
  cases hs : builtin M argv p s w with
  | none =>
    rw [hs] at hbuiltin
    have hs' : builtin M argv p s' w = none := Option.map_eq_none_iff.mp hbuiltin.symm
    simp only [hs', external_outcome]
  | some r =>
    rw [hs] at hbuiltin
    obtain ⟨r', hr', heq⟩ := Option.map_eq_some_iff.mp hbuiltin.symm
    simp only [hr', Option.map_some, heq]

theorem value_append (s : State) (a b : Word) : value s (a ++ b) = value s a ++ value s b :=
  List.flatMap_append

@[simp] theorem value_plain (s : State) (text : Text) : value s (text.map .plain) = text := by
  simp [value, List.flatMap_map, Seg.value]

@[simp] theorem value_quoted (s : State) (text : Text) : value s (text.map .quoted) = text := by
  simp [value, List.flatMap_map, Seg.value]

@[simp] theorem value_param (s : State) (name : Text) :
    value s [.param name] = (s.vars name).getD [] := by
  simp [value, Seg.value]

/-- A name in front of the sign is read to its end. -/
theorem assignmentFrom_append {name : Text} (h : name.all isNameChar = true) (sofar : Text)
    (rest : Word) :
    assignmentFrom sofar (name.map .plain ++ rest) = assignmentFrom (sofar ++ name) rest := by
  induction name generalizing sofar with
  | nil => simp
  | cons c name ih =>
    rw [List.all_cons, Bool.and_eq_true] at h
    have hc : c ≠ '=' := by
      rintro rfl
      exact absurd h.1 (by decide)
    simp [assignmentFrom, hc, h.1, ih h.2]

/-- An assignment. -/
theorem assignment_name {name : Text} (h : isName name = true) (v : Word) :
    assignment (name.map .plain ++ .plain '=' :: v) = some (name, v) := by
  have hall : name.all isNameChar = true := by
    cases name with
    | nil => cases h
    | cons c rest =>
      obtain ⟨hstart, hrest⟩ := Bool.and_eq_true_iff.mp h
      simp [isNameChar, hstart, hrest]
  rw [assignment, assignmentFrom_append hall, List.nil_append]
  simp [assignmentFrom, h]

theorem splitAssignments_cons_of_none {w : Word} (h : assignment w = none) (ws : List Word) :
    splitAssignments (w :: ws) = ([], w :: ws) := by
  simp [splitAssignments, h]

theorem splitAssignments_append {as : List (Word × Text × Word)}
    (h : ∀ a ∈ as, assignment a.1 = some a.2) {w : Word} (hw : assignment w = none)
    (ws : List Word) :
    splitAssignments (as.map Prod.fst ++ w :: ws) = (as.map Prod.snd, w :: ws) := by
  induction as with
  | nil => simp [splitAssignments, hw]
  | cons a as ih =>
    have hfirst := h a List.mem_cons_self
    have hrest := ih fun b hb => h b (List.mem_cons_of_mem a hb)
    rw [List.map_cons, List.cons_append, splitAssignments, hfirst]
    simp only [hrest, List.map_cons]

/-- A simple command with assignments in front. -/
theorem eval_simple_append {as : List (Word × Text × Word)}
    (h : ∀ a ∈ as, assignment a.1 = some a.2) {c : Word} (hc : assignment c = none)
    (ws : List Word) (s : State) (w : σ) :
    eval M sh (.simple (as.map Prod.fst ++ c :: ws)) s w =
      command M sh ((c :: ws).map (value s))
        ((as.map Prod.snd).foldl (fun p a => p.export a.1 (value s a.2)) s.proc) s w := by
  rw [eval, runSimple]
  simp only [splitAssignments_append h hc]
  rfl

theorem eval_simple {c : Word} (hc : assignment c = none) (ws : List Word) (s : State) (w : σ) :
    eval M sh (.simple (c :: ws)) s w = command M sh ((c :: ws).map (value s)) s.proc s w := by
  rw [eval, runSimple]
  simp only [splitAssignments_cons_of_none hc]
  rfl

/-! ## Section 5: Shells in shells -/

/-- What one shell does, the other does too. -/
def Extends (sh sh' : Text → Process → σ → Option (Outcome σ)) : Prop :=
  ∀ text p w o, sh text p w = some o → sh' text p w = some o

variable {sh' : Text → Process → σ → Option (Outcome σ)}

theorem Extends.exec (h : Extends sh sh') {argv : List Text} {p : Process} {w : σ}
    {o : Outcome σ} (ho : exec M sh argv p w = some o) : exec M sh' argv p w = some o := by
  rw [Shell.exec] at ho ⊢
  split
  · rename_i script hscript
    simp only [hscript] at ho
    exact h _ _ _ _ ho
  · rename_i hscript
    simpa only [hscript] using ho

theorem Extends.external (h : Extends sh sh') {argv : List Text} {p : Process} {s : State} {w : σ}
    {r : Text × State × σ} (hr : external M sh argv p s w = some r) :
    external M sh' argv p s w = some r := by
  obtain ⟨o, ho, rfl⟩ := Option.map_eq_some_iff.mp hr
  rw [Shell.external, h.exec ho, Option.map_some]

theorem Extends.command (h : Extends sh sh') {argv : List Text} {p : Process} {s : State} {w : σ}
    {r : Text × State × σ} (hr : command M sh argv p s w = some r) :
    command M sh' argv p s w = some r := by
  rw [Shell.command] at hr ⊢
  split
  · rename_i q hq
    simpa only [hq] using hr
  · rename_i hnone
    simp only [hnone] at hr
    exact h.external hr

theorem Extends.eval (h : Extends sh sh') {c : Cmd} {s : State} {w : σ} {r : Text × State × σ}
    (hr : eval M sh c s w = some r) : eval M sh' c s w = some r := by
  induction c generalizing s w r with
  | simple ws =>
    rw [Shell.eval, runSimple] at hr ⊢
    split
    · rename_i hargs
      simpa only [hargs] using hr
    · rename_i argv hargs
      split at hr
      · rename_i hnil
        exact absurd hnil hargs
      · exact h.command hr
  | sub c ih =>
    obtain ⟨q, hq, rfl⟩ := Option.map_eq_some_iff.mp hr
    rw [Shell.eval, ih hq, Option.map_some]
  | into c path ih =>
    obtain ⟨q, hq, rfl⟩ := Option.map_eq_some_iff.mp hr
    rw [Shell.eval, ih hq, Option.map_some]
  | both a b iha ihb =>
    obtain ⟨q, hq, hrest⟩ := Option.bind_eq_some_iff.mp hr
    rw [Shell.eval, iha hq, Option.bind_some]
    split
    · rename_i hstatus
      rw [if_pos hstatus] at hrest
      obtain ⟨q', hq', rfl⟩ := Option.map_eq_some_iff.mp hrest
      rw [ihb hq', Option.map_some]
    · rename_i hstatus
      rwa [if_neg hstatus] at hrest
  | seq a b iha ihb =>
    obtain ⟨q, hq, hrest⟩ := Option.bind_eq_some_iff.mp hr
    obtain ⟨q', hq', rfl⟩ := Option.map_eq_some_iff.mp hrest
    rw [Shell.eval, iha hq, Option.bind_some, ihb hq', Option.map_some]

/-- More shells in each other do the same, where there were enough. -/
theorem shell_extends {n m : Nat} (h : n ≤ m) : Extends (shell M n) (shell M m) := by
  intro text p w o ho
  induction n generalizing m text p w o with
  | zero => cases ho
  | succ n ih =>
    obtain ⟨m, rfl⟩ : ∃ k, m = k + 1 := ⟨m - 1, by omega⟩
    obtain ⟨c, hread, hrest⟩ := Option.bind_eq_some_iff.mp ho
    obtain ⟨r, hr, rfl⟩ := Option.map_eq_some_iff.mp hrest
    have hextends : Extends (Shell.shell M n) (Shell.shell M m) :=
      fun _ _ _ _ ho' => ih (Nat.le_of_succ_le_succ h) _ _ _ _ ho'
    rw [Shell.shell, hread, Option.bind_some, hextends.eval hr, Option.map_some]

end Udroid.Unix.Shell
