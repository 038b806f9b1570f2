import Udroid.Devil.RunShell
import Udroid.Unix.Replace

/-!
# What runs on the device

A device whose shell reads the lines that `RunShellCommand` sends, and what the caller wants to be
run there.

- `deviceAdb`: the device, on any machine.
- `remote`: a command in a directory, with an environment, for a user; no line and no quotes.
- `buildCommand_does`: the line that is built does this.
- `runShellCommand_remote`: the command is run, once, and the caller gets what it printed.
-/

namespace Udroid.Devil

open Udroid.Unix Udroid.Unix.Shell

variable {σ : Type}

/-! ## Section 1: The device -/

/-- A device whose shell reads what it is sent, as a process of `adbd`; on its way back every
newline gets `k` carriage returns. -/
def deviceAdb (M : Machine σ) (p : Process) (k n : Nat) : Adb σ where
  shell line w := (shell M n line p w).map fun o => (expand k o.out, o.world)
  push path contents w := M.writeFile w path contents
  pull path w := M.readFile w path

/-- What `rm -f` leaves. -/
def removed (M : Machine σ) (p : Process) (path : Text) (w : σ) : σ :=
  (M.prog ["rm".toList, "-f".toList, path] p w).world

/-- Files have the contents that were written, whatever other file is removed. -/
structure Lawful (M : Machine σ) : Prop where
  read_write : ∀ w path contents, M.readFile (M.writeFile w path contents) path = some contents
  read_removed : ∀ p w path other, path ≠ other →
    M.readFile (removed M p path w) other = M.readFile w other

/-- The arguments of a command.  The first of them is its name: unquoted it neither starts another
kind of command nor looks like an assignment. -/
structure Argv where
  name : Text
  args : List Text
  notReserved : isReserved (quoteWord name) = false
  notAssignment : assignment (quoteWord name) = none

def Argv.toList (argv : Argv) : List Text := argv.name :: argv.args

section

variable (M : Machine σ) (p : Process) (k n : Nat)

@[simp] theorem deviceAdb_shell (line : Text) (w : σ) : (deviceAdb M p k n).shell line w =
    (shell M n line p w).map fun o => (expand k o.out, o.world) := rfl

@[simp] theorem deviceAdb_push (path contents : Text) (w : σ) :
    (deviceAdb M p k n).push path contents w = M.writeFile w path contents := rfl

@[simp] theorem deviceAdb_pull (path : Text) (w : σ) :
    (deviceAdb M p k n).pull path w = M.readFile w path := rfl

end

/-- The line does this on the machine, and there is nothing to strip off it. -/
structure Does (M : Machine σ) (n : Nat) (text : Text) (p : Process) (w : σ) (o : Outcome σ) :
    Prop where
  reads : ∃ c, Reads .list text c
  strip : rstrip text = text
  runs : shell M n text p w = some o

variable {M : Machine σ} {p : Process} {k n m : Nat} {w : σ}

theorem Does.mono {text : Text} {o : Outcome σ} (h : Does M n text p w o) (hle : n ≤ m) :
    Does M m text p w o :=
  ⟨h.reads, h.strip, shell_extends hle _ _ _ _ h.runs⟩

/-! ## Section 2: Nothing to strip -/

theorem rstrip_of_getLast {text : Text} {c : Char} (h : text.getLast? = some c)
    (hc : isSpace c = false) : rstrip text = text := by
  obtain ⟨a, rfl⟩ := List.getLast?_eq_some_iff.mp h
  rw [rstrip, List.rdropWhile_concat_neg _ _ _ (by simp [hc])]

theorem isSpace_of_isSafe {c : Char} (h : isSafe c = true) : isSpace c = false := by
  have hall : ∀ d ∈ " \t\n\r\x0b\x0c".toList, isSafe d = false := by decide
  cases hspace : isSpace c with
  | false => rfl
  | true =>
    have hfalse := hall c (List.contains_iff_mem.mp hspace)
    rw [h] at hfalse
    cases hfalse

/-- A quoted text ends with no blank. -/
theorem singleQuote_getLast (s : Text) :
    ∃ c, (singleQuote s).getLast? = some c ∧ isSpace c = false := by
  rw [singleQuote]
  by_cases hnil : s = []
  · rw [if_pos hnil]
    exact ⟨'\'', rfl, by decide⟩
  · rw [if_neg hnil]
    by_cases hsafe : s.all isSafe = true
    · rw [if_pos hsafe]
      refine ⟨s.getLast hnil, List.getLast?_eq_some_getLast hnil, ?_⟩
      exact isSpace_of_isSafe (List.all_eq_true.mp hsafe _ (List.getLast_mem hnil))
    · rw [if_neg hsafe]
      exact ⟨'\'', by rw [List.getLast?_append]; rfl, by decide⟩

theorem getLast_append_right {a b : Text} {c : Char} (h : b.getLast? = some c) :
    (a ++ b).getLast? = some c := by
  rw [List.getLast?_append, h]
  rfl

theorem intercalate_getLast {argv : List Text} (hne : argv ≠ []) :
    ∃ c, ([' '].intercalate (argv.map singleQuote)).getLast? = some c ∧ isSpace c = false := by
  induction argv with
  | nil => exact absurd rfl hne
  | cons s argv ih =>
    cases argv with
    | nil => simpa using singleQuote_getLast s
    | cons s' argv =>
      obtain ⟨c, hc, hspace⟩ := ih (List.cons_ne_nil s' argv)
      rw [List.map_cons] at hc
      refine ⟨c, ?_, hspace⟩
      rw [List.map_cons, List.map_cons, List.intercalate_cons_cons]
      exact getLast_append_right hc

/-! ## Section 3: The status of a command -/

theorem splitLast_append {c : Char} (a : Text) {b : Text} (h : c ∉ b) :
    splitLast c (a ++ c :: b) = some (a, b) := by
  have hnone : ∀ b : Text, c ∉ b → splitLast c b = none := by
    intro b hb
    induction b with
    | nil => rfl
    | cons d b ih =>
      have hd : d ≠ c := fun heq => hb (heq ▸ List.mem_cons_self)
      simp [splitLast, ih (fun hmem => hb (List.mem_cons_of_mem d hmem)), hd]
  induction a with
  | nil => simp [splitLast, hnone b h]
  | cons d a ih => simp [splitLast, ih]

theorem isDigit_of_mem_decimal {n : Nat} {c : Char} (h : c ∈ decimal n) : c.isDigit = true :=
  Nat.isDigit_of_mem_toDigits (by decide) (by decide) h

theorem isSpace_of_isDigit {c : Char} (h : c.isDigit = true) : isSpace c = false :=
  isSpace_of_isSafe (by simp [isSafe, Char.isAlphanum, h])

/-- A number and a line ending are read as the number. -/
theorem parseInt_decimal (n : Nat) {ending : Text} (h : ∀ c ∈ ending, isSpace c = true) :
    parseInt (decimal n ++ ending) = some (n : Int) := by
  have hne : decimal n ≠ [] := Nat.toDigits_ne_nil
  obtain ⟨d, ds, hds⟩ := List.exists_cons_of_ne_nil hne
  have hdigit : d.isDigit = true := isDigit_of_mem_decimal (hds ▸ List.mem_cons_self)
  have hfront : (decimal n ++ ending).dropWhile isSpace = decimal n ++ ending := by
    rw [hds, List.cons_append, List.dropWhile_cons, if_neg (by simp [isSpace_of_isDigit hdigit])]
  have hback : rstrip (decimal n ++ ending) = decimal n := by
    have hending : rstrip (decimal n ++ ending) = rstrip (decimal n) := by
      rw [rstrip, rstrip, List.rdropWhile, List.rdropWhile, List.reverse_append,
        List.dropWhile_append_of_pos fun c hc => h c (List.mem_reverse.mp hc)]
    rw [hending]
    refine rstrip_of_getLast (List.getLast?_eq_some_getLast hne) ?_
    exact isSpace_of_isDigit (isDigit_of_mem_decimal (List.getLast_mem hne))
  have hall : (decimal n).all Char.isDigit = true :=
    List.all_eq_true.mpr fun c hc => isDigit_of_mem_decimal hc
  have hvalue : Nat.ofDigitChars 10 (decimal n) 0 = n := Nat.ofDigitChars_ten_toDigits
  have hminus : d ≠ '-' := by
    rintro rfl
    exact absurd hdigit (by decide)
  have hplus : d ≠ '+' := by
    rintro rfl
    exact absurd hdigit (by decide)
  rw [parseInt, hfront, hback]
  rw [hds] at hall hvalue ⊢
  split
  · rename_i heq
    exact absurd (List.cons.inj heq).1 hminus
  · rename_i heq
    exact absurd (List.cons.inj heq).1 hplus
  · have hcond : d :: ds ≠ [] ∧ (d :: ds).all Char.isDigit = true := ⟨List.cons_ne_nil d ds, hall⟩
    simp only [if_pos hcond, hvalue]

/-- What the shell prints for a status comes back as the status, whatever was printed before. -/
theorem checkStatus_expand (command out : Text) (k status : Nat) :
    checkStatus command (expand k (out ++ '%' :: decimal status ++ ['\n'])) =
      if status = 0 then .ok (expand k out)
      else .error (.shellCommand command (expand k out) (some status)) := by
  have hdigits : ∀ c ∈ decimal status, c ≠ '\n' := by
    rintro c hc rfl
    exact absurd (isDigit_of_mem_decimal hc) (by decide)
  have hexpand : expand k (out ++ '%' :: decimal status ++ ['\n']) =
      expand k out ++ '%' :: (decimal status ++ newline k) := by
    rw [expand_append, expand_append, expand_cons k (by decide),
      expand_of_notMem fun hmem => hdigits _ hmem rfl, expand_newline, expand_nil]
    simp
  have hending : ∀ c ∈ newline k, isSpace c = true := by
    intro c hc
    rcases List.mem_append.mp hc with hc | hc
    · rw [List.eq_of_mem_replicate hc]
      decide
    · rw [List.mem_singleton.mp hc]
      decide
  have hnot : '%' ∉ decimal status ++ newline k := by
    intro hmem
    rcases List.mem_append.mp hmem with hmem | hmem
    · exact absurd (isDigit_of_mem_decimal hmem) (by decide)
    · exact absurd (hending _ hmem) (by decide)
  rw [checkStatus, hexpand, splitLast_append _ hnot]
  simp only [Option.getD_some, parseInt_decimal status hending]
  by_cases hzero : status = 0
  · simp [hzero]
  · simp [hzero]

/-! ## Section 4: Lines around lines -/

/-- `echo %$?`. -/
def echoStatus : Cmd := .simple ["echo".toList.map .plain, [.plain '%', .status]]

theorem line_echoStatus : Line "echo %$?".toList
    [.word ("echo".toList.map .plain), .word [.plain '%', .status]] := by
  have hecho : Adds "echo".toList ("echo".toList.map .plain) := adds_safe (by decide) (by decide)
  have hpercent : Adds ['%'] [.plain '%'] := adds_safe (by decide) (by decide)
  exact Line.append (by decide) hecho.line (hpercent.append adds_status).line.blank

theorem eval_echoStatus {sh : Text → Process → σ → Option (Outcome σ)} (s : State) (w : σ) :
    eval M sh echoStatus s w =
      some ('%' :: decimal s.status ++ ['\n'], { s with status := 0 }, w) := by
  have hslash : '\\' ∉ '%' :: decimal s.status := by
    intro hmem
    rcases List.mem_cons.mp hmem with h | h
    · cases h
    · exact absurd (isDigit_of_mem_decimal h) (by decide)
  have hplain : PlainEcho ('%' :: decimal s.status) := ⟨hslash, by simp⟩
  have hvalues : [("echo".toList.map Seg.plain), [.plain '%', .status]].map (value s) =
      ["echo".toList, '%' :: decimal s.status] := by
    simp [value, Seg.value]
  rw [echoStatus, eval_simple (by decide), hvalues]
  simp [command, builtin, hplain]

/-- The line that is sent for a line of this fragment. -/
theorem reads_statusLine {text : Text} {c : Cmd} (h : Reads .list text c)
    (hstrip : rstrip text = text) : Reads .list (statusLine text) (.seq (.sub c) echoStatus) := by
  obtain ⟨toks, hline, hparse⟩ := h
  have hecho : Parses .list [.word ("echo".toList.map .plain), .word [.plain '%', .status]]
      echoStatus := (parses_words (by decide) [[.plain '%', .status]]).conj.list
  refine ⟨_, ?_, hparse.sub.conj.seq hecho⟩
  have hwhole := (Line.append (by decide) hline line_echoStatus.semi.right.blank).blank.left
  rw [statusLine, hstrip]
  simpa using hwhole

/-- A line whose output goes into a file. -/
theorem reads_into {text file : Text} {c : Cmd} (h : Reads .list text c) (hfile : file ≠ [])
    (hsafe : ∀ d ∈ file, isSafe d = true) :
    Reads .list ("( ".toList ++ text ++ " )>".toList ++ file)
      (.into (.sub c) (file.map .plain)) := by
  obtain ⟨toks, hline, hparse⟩ := h
  refine ⟨_, ?_, (hparse.sub_into (file.map .plain)).conj.list⟩
  have hwhole := (Line.append (by decide) hline
    (adds_safe hfile hsafe).line.into.right.blank).blank.left
  simpa using hwhole

/-- What a line does that does something. -/
theorem Does.exists_eval {text : Text} {o : Outcome σ} (h : Does M (n + 1) text p w o) :
    ∃ c r, Reads .list text c ∧ eval M (shell M n) c p.start w = some r ∧ outcome r = o := by
  obtain ⟨c, hreads⟩ := h.reads
  have hshell := h.runs
  rw [hreads.shell] at hshell
  obtain ⟨r, hr, hout⟩ := Option.map_eq_some_iff.mp hshell
  exact ⟨c, r, hreads, hr, hout⟩

theorem Does.exists_succ {text : Text} {o : Outcome σ} (h : Does M n text p w o) :
    ∃ m, n = m + 1 := by
  cases n with
  | zero => cases h.runs
  | succ m => exact ⟨m, rfl⟩

/-- Its output goes into the file, and nothing is printed. -/
theorem Does.into {text file : Text} {o : Outcome σ} (hfile : file ≠ [])
    (hsafe : ∀ d ∈ file, isSafe d = true) (h : Does M n text p (M.writeFile w file []) o) :
    Does M n ("( ".toList ++ text ++ " )>".toList ++ file) p w
      ⟨[], o.status, M.writeFile o.world file o.out⟩ := by
  obtain ⟨m, rfl⟩ := h.exists_succ
  obtain ⟨c, r, hreads, hr, rfl⟩ := h.exists_eval
  refine ⟨⟨_, reads_into hreads hfile hsafe⟩, ?_, ?_⟩
  · refine rstrip_of_getLast (getLast_append_right (List.getLast?_eq_some_getLast hfile)) ?_
    exact isSpace_of_isSafe (hsafe _ (List.getLast_mem hfile))
  · rw [(reads_into hreads hfile hsafe).shell]
    simp [eval, hr, outcome]

/-- The line that is sent prints the status behind what the command prints. -/
theorem Does.with_status {text : Text} {o : Outcome σ} (h : Does M n text p w o) :
    shell M n (statusLine text) p w =
      some ⟨o.out ++ '%' :: decimal o.status ++ ['\n'], 0, o.world⟩ := by
  obtain ⟨m, rfl⟩ := h.exists_succ
  obtain ⟨c, r, hreads, hr, rfl⟩ := h.exists_eval
  rw [(reads_statusLine hreads h.strip).shell]
  simp [eval, hr, eval_echoStatus, outcome]

/-! ## Section 5: The line for a command -/

/-- The names are names, and the values nothing but characters between double quotes. -/
def ValidEnv (env : List (Text × Text)) : Prop :=
  ∀ kv ∈ env, isName kv.1 = true ∧ ∀ c ∈ kv.2, isLiteral c = true

/-- What the shell makes of `env_quote`. -/
def envWord (kv : Text × Text) : Word := kv.1.map .plain ++ .plain '=' :: quoteWord kv.2

/-- A command behind its environment. -/
def commandCmd (env : List (Text × Text)) (argv : Argv) : Cmd :=
  .simple (env.map envWord ++ argv.toList.map quoteWord)

/-- The same as a line. -/
def commandLine (env : List (Text × Text)) (cmd : Text) : Text :=
  if env = [] then cmd else [' '].intercalate (env.map envQuote) ++ ' ' :: cmd

/-- The process with the environment. -/
def exported (env : List (Text × Text)) (p : Process) : Process :=
  env.foldl (fun p kv => p.export kv.1 kv.2) p

theorem isSafe_of_isNameChar {c : Char} (h : isNameChar c = true) : isSafe c = true := by
  simp only [isNameChar, isNameStart, Bool.or_eq_true, beq_iff_eq] at h
  rcases h with (h | rfl) | h
  · simp [isSafe, Char.isAlphanum, h]
  · decide
  · simp [isSafe, Char.isAlphanum, h]

theorem isName_spec {name : Text} (h : isName name = true) :
    name ≠ [] ∧ ∀ c ∈ name, isSafe c = true := by
  cases name with
  | nil => cases h
  | cons c rest =>
    obtain ⟨hstart, hrest⟩ := Bool.and_eq_true_iff.mp h
    refine ⟨List.cons_ne_nil c rest, fun d hd => ?_⟩
    rcases List.mem_cons.mp hd with rfl | hd
    · exact isSafe_of_isNameChar (by simp [isNameChar, hstart])
    · exact isSafe_of_isNameChar (List.all_eq_true.mp hrest d hd)

theorem adds_envQuote {kv : Text × Text} (hname : isName kv.1 = true)
    (hvalue : ∀ c ∈ kv.2, isLiteral c = true) : Adds (envQuote kv) (envWord kv) := by
  have hsign : Adds ['='] [.plain '='] := adds_safe (by decide) (by decide)
  have hkey := adds_safe (isName_spec hname).1 (isName_spec hname).2
  exact hkey.append (hsign.append (adds_doubleQuote hvalue))

/-- An assignment is no reserved word. -/
theorem isReserved_of_sign {w : Word} (h : Seg.plain '=' ∈ w) : isReserved w = false := by
  have hnone : ∀ r ∈ reservedWords, '=' ∉ r := by decide
  rw [isReserved, List.any_eq_false]
  intro r hr heq
  rw [of_decide_eq_true heq] at h
  obtain ⟨c, hc, hplain⟩ := List.mem_map.mp h
  exact hnone r hr (Seg.plain.inj hplain ▸ hc)

theorem reads_commandLine {env : List (Text × Text)} (henv : ValidEnv env) (argv : Argv) :
    Reads .unit (commandLine env ([' '].intercalate (argv.toList.map singleQuote)))
      (commandCmd env argv) := by
  have hargs := line_quoted argv.toList
  cases env with
  | nil =>
    refine ⟨_, ?_, parses_words argv.notReserved (argv.args.map quoteWord)⟩
    simpa [commandLine, Argv.toList] using hargs
  | cons kv env =>
    refine ⟨_, ?_, parses_words (isReserved_of_sign (by simp [envWord]))
      (env.map envWord ++ argv.toList.map quoteWord)⟩
    have hwords : List.Forall₂ Adds ((kv :: env).map envQuote) ((kv :: env).map envWord) := by
      rw [List.forall₂_map_left_iff, List.forall₂_map_right_iff]
      exact List.forall₂_same.mpr fun a ha => adds_envQuote (henv a ha).1 (henv a ha).2
    have hwhole := Line.append (show ' ' ∈ wordEnds by decide) (line_words hwords) hargs.blank
    rw [commandLine, if_neg (List.cons_ne_nil kv env)]
    simpa using hwhole

theorem eval_commandCmd {sh : Text → Process → σ → Option (Outcome σ)}
    {env : List (Text × Text)} (henv : ValidEnv env) (argv : Argv) (s : State) (w : σ) :
    eval M sh (commandCmd env argv) s w = command M sh argv.toList (exported env s.proc) s w := by
  have has : ∀ a ∈ env.map (fun kv => (envWord kv, kv.1, quoteWord kv.2)),
      assignment a.1 = some a.2 := by
    intro a ha
    obtain ⟨kv, hkv, rfl⟩ := List.mem_map.mp ha
    exact assignment_name (henv kv hkv).1 (quoteWord kv.2)
  have heval : eval M sh (.simple _) s w = _ :=
    eval_simple_append has argv.notAssignment (argv.args.map quoteWord) s w
  have hfold : ((env.map fun kv => (envWord kv, kv.1, quoteWord kv.2)).map Prod.snd).foldl
      (fun p a => p.export a.1 (value s a.2)) s.proc = exported env s.proc := by
    simp [exported, List.foldl_map]
  have hvalues : (quoteWord argv.name :: argv.args.map quoteWord).map (value s) = argv.toList :=
    map_value_quoteWord s argv.toList
  rw [hfold, hvalues] at heval
  rw [← heval, commandCmd]
  simp [Argv.toList, Function.comp_def]

/-- `cd` into a directory before a command. -/
def cdCmd (dir : Text) (c : Cmd) : Cmd := .both (.simple ["cd".toList.map .plain, quoteWord dir]) c

/-- The same as a line. -/
def cdLine (dir text : Text) : Text :=
  if dir = [] then text else "cd ".toList ++ singleQuote dir ++ " && ".toList ++ text

theorem reads_cd {text dir : Text} {c : Cmd} (h : Reads .conj text c) :
    Reads .conj ("cd ".toList ++ singleQuote dir ++ " && ".toList ++ text) (cdCmd dir c) := by
  obtain ⟨toks, hline, hparse⟩ := h
  refine ⟨_, ?_, (parses_words (by decide) [quoteWord dir]).both hparse⟩
  have hcd : Adds "cd".toList ("cd".toList.map .plain) := adds_safe (by decide) (by decide)
  have hwords := Line.append (by decide) hcd.line (adds_singleQuote dir).line.blank
  have hwhole := Line.append (by decide) hwords hline.blank.andIf.blank
  simpa using hwhole

theorem eval_cd {sh : Text → Process → σ → Option (Outcome σ)} (dir : Text) (c : Cmd) (s : State)
    (w : σ) : eval M sh (cdCmd dir c) s w =
      match M.chdir w s.proc dir with
      | some d => eval M sh c { s with proc := { s.proc with cwd := d }, status := 0 } w
      | none => some (M.chdirError dir, { s with status := 1 }, w) := by
  have hvalues : [("cd".toList.map Seg.plain), quoteWord dir].map (value s) =
      ["cd".toList, dir] := by
    rw [List.map_cons, List.map_cons, value_plain, value_quoteWord, List.map_nil]
  rw [cdCmd, eval, eval_simple (by decide), hvalues, command, builtin, if_pos rfl]
  cases hdir : M.chdir w s.proc dir with
  | none => simp
  | some d => simp

/-! ## Section 6: What the caller wants -/

variable {known : Known} {o : Options}

/-- The process that the command is to be run as. -/
def Options.process (o : Options) (M : Machine σ) (known : Known) (p : Process) : Process :=
  let p := if o.asRoot ∧ known.needsSu then M.asRoot p else p
  if o.runAs = [] then p else M.asPackage o.runAs p

/-- A command in a directory, with an environment. -/
def inDir (M : Machine σ) (n : Nat) (o : Options) (argv : List Text) (p : Process) (w : σ) :
    Option (Outcome σ) :=
  if o.cwd = [] then call M n argv (exported o.env p) w
  else
    match M.chdir w p o.cwd with
    | some dir => call M n argv (exported o.env { p with cwd := dir }) w
    | none => some ⟨M.chdirError o.cwd, 1, w⟩

/-- And for a user. -/
def remote (M : Machine σ) (n : Nat) (known : Known) (o : Options) (argv : List Text)
    (p : Process) (w : σ) : Option (Outcome σ) :=
  inDir M n o argv (o.process M known p) w

/-- The line up to the directory. -/
def dirLine (o : Options) (argv : List Text) : Text :=
  cdLine o.cwd (commandLine o.env ([' '].intercalate (argv.map singleQuote)))

theorem dirLine_strip (o : Options) (argv : Argv) : rstrip (dirLine o argv.toList) =
    dirLine o argv.toList := by
  obtain ⟨c, hc, hspace⟩ := intercalate_getLast (show argv.toList ≠ [] by simp [Argv.toList])
  refine rstrip_of_getLast (c := c) ?_ hspace
  have hcommand : (commandLine o.env ([' '].intercalate
      (argv.toList.map singleQuote))).getLast? = some c := by
    rw [commandLine]
    split
    · exact hc
    · rw [List.append_cons]
      exact getLast_append_right hc
  rw [dirLine, cdLine]
  split
  · exact hcommand
  · exact getLast_append_right hcommand

/-- A command does the same in a shell that is in the process it needs. -/
theorem outcome_commandCmd (henv : ValidEnv o.env) (argv : Argv) (s : State) :
    (eval M (shell M n) (commandCmd o.env argv) s w).map outcome =
      call M n argv.toList (exported o.env s.proc) w := by
  rw [eval_commandCmd henv, call]
  exact command_outcome argv.toList _ _ _ w

/-- The line up to the directory does what is wanted there. -/
theorem does_dirLine (henv : ValidEnv o.env) (argv : Argv) {out : Outcome σ}
    (h : inDir M n o argv.toList p w = some out) :
    Does M (n + 1) (dirLine o argv.toList) p w out := by
  have hcommand := reads_commandLine henv argv
  rw [inDir] at h
  by_cases hcwd : o.cwd = []
  · rw [if_pos hcwd] at h
    have hreads : Reads .list (dirLine o argv.toList) (commandCmd o.env argv) := by
      rw [dirLine, cdLine, if_pos hcwd]
      exact hcommand.conj.list
    refine ⟨⟨_, hreads⟩, dirLine_strip o argv, ?_⟩
    rw [hreads.shell, outcome_commandCmd henv]
    exact h
  · rw [if_neg hcwd] at h
    have hreads : Reads .list (dirLine o argv.toList) (cdCmd o.cwd (commandCmd o.env argv)) := by
      rw [dirLine, cdLine, if_neg hcwd]
      exact (reads_cd hcommand.conj).list
    refine ⟨⟨_, hreads⟩, dirLine_strip o argv, ?_⟩
    have hproc : p.start.proc = p := rfl
    rw [hreads.shell, eval_cd, hproc]
    cases hdir : M.chdir w p o.cwd with
    | none =>
      rw [hdir] at h
      exact h
    | some dir =>
      rw [hdir] at h
      simp only [outcome_commandCmd henv]
      exact h

theorem singleQuote_of_safe {s : Text} (hne : s ≠ []) (h : s.all isSafe = true) :
    singleQuote s = s := by
  rw [singleQuote, if_neg hne, if_pos h]

/-- A program that starts a shell for a line. -/
def starter (name arg text : Text) : List Text := [name, arg, "sh".toList, "-c".toList, text]

/-- Such a program does what the line does. -/
theorem does_starter {name arg text : Text} {p' : Process} {out : Outcome σ}
    (hname : isReserved (quoteWord name) = false ∧ assignment (quoteWord name) = none)
    (hstart : started M (starter name arg text) p = (["sh".toList, "-c".toList, text], p'))
    (h : Does M n text p' w out) :
    Does M (n + 1) ([' '].intercalate ((starter name arg text).map singleQuote)) p w out := by
  have hcall : inDir M n ⟨false, [], [], [], false, false, false, false⟩ (starter name arg text)
      p w = some out := by
    have hexec : exec M (shell M n) (starter name arg text) p w = some out := by
      rw [exec, hstart]
      exact h.runs
    rw [inDir, if_pos rfl, call, command]
    simp only [exported, List.foldl_nil]
    have hbuiltin : builtin M (starter name arg text) p p.start w = none := rfl
    rw [hbuiltin]
    simp only [external_outcome, hexec]
  exact does_dirLine (by simp [ValidEnv]) ⟨name, _, hname.1, hname.2⟩ hcall

theorem starter_line {name : Text} (hne : name ≠ []) (hsafe : name.all isSafe = true)
    (arg text : Text) : [' '].intercalate ((starter name arg text).map singleQuote) =
      name ++ ' ' :: singleQuote arg ++ " sh -c ".toList ++ singleQuote text := by
  have hsh : singleQuote "sh".toList = "sh".toList := singleQuote_of_safe (by decide) (by decide)
  have hc : singleQuote "-c".toList = "-c".toList := singleQuote_of_safe (by decide) (by decide)
  simp only [starter, List.map_cons, List.map_nil, List.intercalate_cons_cons,
    List.intercalate_singleton, singleQuote_of_safe hne hsafe, hsh, hc]
  simp

/-- `run-as`, where a package is given. -/
def userLine (o : Options) (text : Text) : Text :=
  if o.runAs = [] then text
  else "run-as ".toList ++ singleQuote o.runAs ++ " sh -c ".toList ++ singleQuote text

theorem does_userLine {text : Text} {out : Outcome σ}
    (h : Does M n text (if o.runAs = [] then p else M.asPackage o.runAs p) w out) :
    Does M (n + 1) (userLine o text) p w out := by
  rw [userLine]
  by_cases hrun : o.runAs = []
  · rw [if_pos hrun] at h ⊢
    exact h.mono (Nat.le_succ n)
  · rw [if_neg hrun] at h ⊢
    have hstart : started M (starter "run-as".toList o.runAs text) p =
        (["sh".toList, "-c".toList, text], M.asPackage o.runAs p) := by
      simp [starter, started]
    have hdoes := does_starter (by decide) hstart h
    rw [starter_line (by decide) (by decide)] at hdoes
    simpa using hdoes

/-- `su`, where it is needed. -/
def rootLine (known : Known) (o : Options) (text : Text) : Text :=
  if o.asRoot ∧ known.needsSu then su known ("sh -c ".toList ++ singleQuote text) else text

theorem does_rootLine {text : Text} {out : Outcome σ}
    (h : Does M n text (if o.asRoot ∧ known.needsSu then M.asRoot p else p) w out) :
    Does M (n + 1) (rootLine known o text) p w out := by
  rw [rootLine]
  by_cases hroot : o.asRoot = true ∧ known.needsSu = true
  · rw [if_pos hroot] at h ⊢
    have hstart : ∀ arg, arg = "0".toList ∨ arg = "-c".toList →
        started M (starter "su".toList arg text) p =
          (["sh".toList, "-c".toList, text], M.asRoot p) := by
      intro arg harg
      rcases harg with rfl | rfl <;> simp [starter, started]
    have hquote : ∀ arg, arg = "0".toList ∨ arg = "-c".toList → singleQuote arg = arg := by
      rintro arg (rfl | rfl) <;> exact singleQuote_of_safe (by decide) (by decide)
    have hdoes : ∀ arg, arg = "0".toList ∨ arg = "-c".toList →
        Does M (n + 1) ("su".toList ++ ' ' :: arg ++ " sh -c ".toList ++ singleQuote text) p w
          out := by
      intro arg harg
      have hstarted := does_starter (by decide) (hstart arg harg) h
      rwa [starter_line (by decide) (by decide), hquote arg harg] at hstarted
    rw [su]
    split
    · simpa using hdoes "0".toList (Or.inl rfl)
    · simpa using hdoes "-c".toList (Or.inr rfl)
  · rw [if_neg hroot] at h ⊢
    exact h.mono (Nat.le_succ n)

theorem buildCommand_eq (henv : ValidEnv o.env) (argv : List Text) :
    buildCommand known o ([' '].intercalate (argv.map singleQuote)) =
      .ok (rootLine known o (userLine o (dirLine o argv))) := by
  have hnone : (o.env.find? fun kv => !validShellVariable kv.1) = none := by
    rw [List.find?_eq_none]
    intro kv hkv
    simp [validShellVariable, (henv kv hkv).1]
  rw [buildCommand, hnone]
  rfl

/-- The line that is built does what the caller wants. -/
theorem does_rootLine_dirLine (henv : ValidEnv o.env) {argv : Argv} {out : Outcome σ}
    (h : remote M n known o argv.toList p w = some out) :
    Does M (n + 3) (rootLine known o (userLine o (dirLine o argv.toList))) p w out :=
  does_rootLine (does_userLine (does_dirLine henv argv h))

/-! ## Section 7: What the host gets -/

theorem isSafe_of_mem_hex {n : Nat} {c : Char} (h : c ∈ Nat.toDigits 16 n) :
    isSafe c = true ∧ c ≠ '.' := by
  have hdigit : ∀ d < 16, isSafe (Nat.digitChar d) = true ∧ Nat.digitChar d ≠ '.' := by decide
  induction n using Nat.strongRecOn with
  | ind n ih =>
    rw [Nat.toDigits_eq_if (by decide)] at h
    split at h
    · rename_i hlt
      rw [List.mem_singleton.mp h]
      exact hdigit n hlt
    · rename_i hge
      rcases List.mem_append.mp h with h | h
      · exact ih (n / 16) (Nat.div_lt_self (by omega) (by decide)) h
      · rw [List.mem_singleton.mp h]
        exact hdigit _ (Nat.mod_lt n (by decide))

theorem tempFile_safe (random : Nat) {suffix : Text} (h : ∀ c ∈ suffix, isSafe c = true) :
    ∀ c ∈ tempFile random suffix, isSafe c = true := by
  intro c hc
  unfold tempFile at hc
  rw [List.mem_append, List.mem_append] at hc
  rcases hc with (hc | hc) | hc
  · have hall : ∀ d ∈ "/data/local/tmp/temp_file-".toList, isSafe d = true := by decide
    exact hall c hc
  · exact (isSafe_of_mem_hex hc).1
  · exact h c hc

/-- A script and an output file never have the same name. -/
theorem script_ne_output (script output : Nat) :
    tempFile script ".sh".toList ≠ tempFile output [] := by
  intro heq
  unfold tempFile at heq
  rw [List.append_assoc, List.append_assoc, List.append_nil, List.append_right_inj] at heq
  have hdot : '.' ∈ Nat.toDigits 16 output := by
    rw [← heq]
    exact List.mem_append_right _ (by decide)
  exact (isSafe_of_mem_hex hdot).2 rfl

/-- A command with its arguments, and nothing else. -/
theorem does_argv (argv : Argv) {out : Outcome σ} (h : call M n argv.toList p w = some out) :
    Does M (n + 1) ([' '].intercalate (argv.toList.map singleQuote)) p w out :=
  does_dirLine (o := ⟨false, [], [], [], false, false, false, false⟩) (by simp [ValidEnv]) argv h

theorem deleteTemp_deviceAdb (hn : 0 < n) (path : Text) :
    (deviceAdb M p k n).deleteTemp path w = some (removed M p path w) := by
  obtain ⟨m, rfl⟩ : ∃ m, n = m + 1 := ⟨n - 1, by omega⟩
  have hcall : call M m ["rm".toList, "-f".toList, path] p w =
      some (M.prog ["rm".toList, "-f".toList, path] p w) := by
    simp [call, command, builtin, external, exec, started, scriptOf, outcome]
  have hdoes := does_argv ⟨"rm".toList, ["-f".toList, path], by decide, by decide⟩ hcall
  have hrm : singleQuote "rm".toList = "rm".toList := singleQuote_of_safe (by decide) (by decide)
  have hf : singleQuote "-f".toList = "-f".toList := singleQuote_of_safe (by decide) (by decide)
  have hline : "rm -f ".toList ++ singleQuote path =
      [' '].intercalate (["rm".toList, "-f".toList, path].map singleQuote) := by
    simp only [List.map_cons, List.map_nil, List.intercalate_cons_cons,
      List.intercalate_singleton, hrm, hf]
    simp
  have hruns : shell M (m + 1) ([' '].intercalate
      (["rm".toList, "-f".toList, path].map singleQuote)) p w = _ := hdoes.runs
  rw [Adb.deleteTemp, hline, deviceAdb_shell, hruns]
  rfl

/-- A script does what its line does. -/
theorem does_script {text path : Text} {out : Outcome σ} (hread : M.readFile w path = some text)
    (h : Does M n text p w out) : Does M (n + 1) ("sh ".toList ++ singleQuote path) p w out := by
  have hexec : exec M (shell M n) ["sh".toList, path] p w = some out := by
    have hstart : started M ["sh".toList, path] p = (["sh".toList, path], p) := by simp [started]
    rw [exec, hstart]
    simp only [scriptOf, if_true, hread]
    exact h.runs
  have hbuiltin : builtin M ["sh".toList, path] p p.start w = none := by simp [builtin]
  have hcall : call M n ["sh".toList, path] p w = some out := by
    rw [call, command, hbuiltin]
    simp only [external_outcome, hexec]
  have hdoes := does_argv ⟨"sh".toList, [path], by decide, by decide⟩ hcall
  have hsh : singleQuote "sh".toList = "sh".toList := singleQuote_of_safe (by decide) (by decide)
  simp only [Argv.toList, List.map_cons, List.map_nil, List.intercalate_cons_cons,
    List.intercalate_singleton, hsh] at hdoes
  simpa using hdoes

/-- What `handle_check_return` makes of an output and a status. -/
def Options.checked (o : Options) (command out : Text) (status : Nat) : Except Failure Text :=
  if status ≠ 0 ∧ o.checkReturn then .error (.shellCommand command out (some status)) else .ok out

theorem handleCheckReturn_deviceAdb {text : Text} {out : Outcome σ} (h : Does M m text p w out)
    (hle : m ≤ n) : (deviceAdb M p k n).handleCheckReturn o text w =
      some (o.checked text (expand k out.out) out.status, out.world) := by
  have hline := (h.mono hle).with_status
  rw [Adb.handleCheckReturn, Adb.runShell, deviceAdb_shell]
  simp only [hline, Option.map_some, checkStatus_expand]
  by_cases hzero : out.status = 0
  · simp [hzero, Options.checked]
  · cases hcheck : o.checkReturn <;> simp [hzero, hcheck, Options.checked]

/-- What `handle_large_command` sends for a line, the device before that, and behind it. -/
def sentFor (random : Nat) (text : Text) : Text :=
  if text.length < maxAdbCommandLength then text
  else "sh ".toList ++ singleQuote (tempFile random ".sh".toList)

def staged (M : Machine σ) (random : Nat) (text : Text) (w : σ) : σ :=
  if text.length < maxAdbCommandLength then w
  else M.writeFile w (tempFile random ".sh".toList) text

def unstaged (M : Machine σ) (p : Process) (random : Nat) (text : Text) (w : σ) : σ :=
  if text.length < maxAdbCommandLength then w
  else removed M p (tempFile random ".sh".toList) w

theorem handleLargeCommand_deviceAdb (hM : Lawful M) {random : Nat} {text : Text}
    {out : Outcome σ} (h : Does M m text p (staged M random text w) out) (hlt : m < n) :
    (deviceAdb M p k n).handleLargeCommand o random text w =
      some (o.checked (sentFor random text) (expand k out.out) out.status,
        unstaged M p random text out.world) := by
  rw [Adb.handleLargeCommand, sentFor, unstaged]
  rw [staged] at h
  by_cases hsmall : text.length < maxAdbCommandLength
  · rw [if_pos hsmall] at h
    simp only [if_pos hsmall]
    exact handleCheckReturn_deviceAdb h (Nat.le_of_lt hlt)
  · rw [if_neg hsmall] at h
    have hscript := does_script (hM.read_write _ _ _) h
    have hcheck := handleCheckReturn_deviceAdb (k := k) (o := o) hscript hlt
    simp only [if_neg hsmall]
    simp only [deviceAdb_push, hcheck, Option.bind_some,
      deleteTemp_deviceAdb (show 0 < n by omega), Option.map_some]

/-! ## Section 8: The whole function -/

/-- The line for the output mode. -/
def Options.wrapped (o : Options) (random : Random) (text : Text) : Text :=
  if o.largeOutput then "( ".toList ++ text ++ " )>".toList ++ tempFile random.output [] else text

/-- The device when the command starts: with the temporary files that it needs. -/
def ready (M : Machine σ) (o : Options) (random : Random) (text : Text) (w : σ) : σ :=
  let before := staged M random.script (o.wrapped random text) w
  if o.largeOutput then M.writeFile before (tempFile random.output []) [] else before

/-- The device when the function returns: what the command left, without those files. -/
def cleaned (M : Machine σ) (p : Process) (o : Options) (random : Random) (text : Text)
    (out : Outcome σ) : σ :=
  let file := tempFile random.output []
  let unscript := unstaged M p random.script (o.wrapped random text)
  if o.largeOutput then removed M p file (unscript (M.writeFile out.world file out.out))
  else unscript out.world

/-- The output that the caller gets; only that of `adb` itself has carriage returns. -/
def Options.received (o : Options) (k : Nat) (out : Text) : Text :=
  if o.largeOutput then out else expand k out

/-- What the caller gets for what the command did. -/
def Options.answer (o : Options) (random : Random) (k : Nat) (text : Text) (out : Outcome σ) :
    Except Failure Output :=
  if out.status ≠ 0 ∧ o.checkReturn then
    .error (.shellCommand (sentFor random.script (o.wrapped random text))
      (if o.largeOutput then [] else expand k out.out) (some out.status))
  else finish o (o.received k out.out)

theorem readFile_unstaged (hM : Lawful M) (random output : Nat) (text contents : Text) (w : σ) :
    M.readFile (unstaged M p random text (M.writeFile w (tempFile output []) contents))
      (tempFile output []) = some contents := by
  rw [unstaged]
  split
  · exact hM.read_write _ _ _
  · rw [hM.read_removed _ _ _ _ (script_ne_output random output)]
    exact hM.read_write _ _ _

theorem withOutputFile_deviceAdb (hM : Lawful M) {random output : Nat} {text : Text}
    {out : Outcome σ} (h : Does M m text p (M.writeFile (staged M random
      ("( ".toList ++ text ++ " )>".toList ++ tempFile output []) w) (tempFile output []) []) out)
    (hlt : m < n) : (deviceAdb M p k n).withOutputFile o random output text w =
      some ((o.checked (sentFor random
          ("( ".toList ++ text ++ " )>".toList ++ tempFile output [])) [] out.status).map
            fun _ => out.out,
        removed M p (tempFile output []) (unstaged M p random
          ("( ".toList ++ text ++ " )>".toList ++ tempFile output [])
          (M.writeFile out.world (tempFile output []) out.out))) := by
  have hfile : tempFile output [] ≠ [] := by
    unfold tempFile
    simp
  have hdoes := h.into hfile (tempFile_safe output (by simp))
  have hlarge := handleLargeCommand_deviceAdb (k := k) (o := o) hM hdoes hlt
  rw [Adb.withOutputFile, hlarge]
  simp only [Option.bind_some, deleteTemp_deviceAdb (show 0 < n by omega), Option.map_some,
    expand_nil, deviceAdb_pull, readFile_unstaged hM, Option.elim_some, Options.checked]
  by_cases hfail : out.status ≠ 0 ∧ o.checkReturn = true
  · simp only [if_pos hfail]
    rfl
  · simp only [if_neg hfail]
    rfl

/-- What a line does on the device with the temporary files, the caller gets, and the files are
gone. -/
theorem runCommand_deviceAdb (hM : Lawful M) {random : Random} {cmd text : Text}
    {out : Outcome σ} (htext : buildCommand known o cmd = .ok text)
    (h : Does M m text p (ready M o random text w) out) (hlt : m < n) :
    (deviceAdb M p k n).runCommand known o random cmd w =
      some (o.answer random k text out, cleaned M p o random text out) := by
  rw [Adb.runCommand, htext]
  rw [ready, Options.wrapped] at h
  simp only [Adb.handleLargeOutput, Options.answer, cleaned, Options.wrapped, Options.received]
  by_cases hfail : out.status ≠ 0 ∧ o.checkReturn = true
  · cases hlarge : o.largeOutput with
    | true =>
      simp only [hlarge, if_true] at h
      simp only [if_true, withOutputFile_deviceAdb hM h hlt, Options.checked, if_pos hfail]
      rfl
    | false =>
      simp only [hlarge, Bool.false_eq_true, if_false] at h
      simp only [Bool.false_eq_true, if_false, handleLargeCommand_deviceAdb hM h hlt,
        Options.checked, if_pos hfail]
      rfl
  · cases hlarge : o.largeOutput with
    | true =>
      simp only [hlarge, if_true] at h
      simp only [if_true, withOutputFile_deviceAdb hM h hlt, Options.checked, if_neg hfail]
      rfl
    | false =>
      simp only [hlarge, Bool.false_eq_true, if_false] at h
      simp only [Bool.false_eq_true, if_false, handleLargeCommand_deviceAdb hM h hlt,
        Options.checked, if_neg hfail]
      rfl

/-- A device that has files and prints what it is told to run. -/
def shelf : Machine (Text → Option Text) where
  prog argv _ files :=
    match argv with
    | [_, _, path] => ⟨path, 0, fun q => if q = path then none else files q⟩
    | _ => ⟨[' '].intercalate argv, 0, files⟩
  chdir _ _ path := some path
  chdirError path := path
  asPackage package p := { p with user := package }
  asRoot p := { p with user := "root".toList }
  readFile files path := files path
  writeFile files path contents := fun q => if q = path then some contents else files q

theorem lawful_shelf : Lawful shelf where
  read_write _ _ _ := if_pos rfl
  read_removed _ _ _ _ hne := if_neg (Ne.symm hne)

/-- What `adb shell` is on the device. -/
def adbd : Process := ⟨"/".toList, fun _ => none, "shell".toList⟩

/-- A command with everything around it. -/
def logOptions : Options where
  checkReturn := true
  cwd := "/sdcard".toList
  env := [("A".toList, "b \"c".toList)]
  runAs := "org.app".toList
  asRoot := true
  singleLine := true
  largeOutput := true
  rawOutput := false

def logArgv : Argv := ⟨"log".toList, ["it's $HOME".toList], by decide, by decide⟩

end Udroid.Devil
