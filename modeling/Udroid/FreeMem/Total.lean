import Udroid.FreeMem.Script

/-!
# What `and-get-free-mem` prints

A listing of cached processes is rendered as `dumpsys` prints it and read back by the
script.

- `cachedProcessArray_listing`: the filter, the blank removal and the word splitting give
  one word for each process of the listing.
- `pidOf_line_iff`: when the search finds the process number, and nothing else.
- `foldlM_turn`: the loop over readable processes adds up their dirty and clean memory.
- `getFreeMem_iff`: when the script asks for the listed processes and prints the right sum.
-/

namespace Udroid.FreeMem

open Udroid.Unix

/-! ## Section 1: The listing -/

/-- No separators other than blanks, and no pattern characters. -/
def Plain (text : Text) : Prop :=
  ∀ c ∈ text, c ≠ '\t' ∧ c ≠ '\n' ∧ isPattern c = false

/-- A process of the listing, printed as `size: name (pid n...)`. -/
structure Member where
  size : Text
  name : Text
  pid : Nat
  rest : Text
  size_digits : ∀ c ∈ size, c.isDigit = true ∨ c ∈ " ,KkB".toList
  name_plain : Plain name
  rest_plain : Plain rest

/-- The line of a process. -/
def Member.line (m : Member) : Text :=
  m.size ++ ": ".toList ++ m.name ++ " (pid ".toList ++ decimal m.pid ++ m.rest ++ ")".toList

/-- The output of `dumpsys meminfo` around the section of the cached processes. -/
structure Listing where
  before : List Text
  header : Text
  members : List Member
  blank : List Text
  after : List Text
  before_unmarked : ∀ line ∈ before, ¬ cachedMark <:+: line
  header_marked : cachedMark <:+: header
  members_unmarked : ∀ m ∈ members, ¬ cachedMark <:+: m.line ∧ ¬ totalMark <:+: m.line
  blank_blank : ∀ line ∈ blank, ∀ c ∈ line, c = ' '
  after_unmarked : ∀ line ∈ after, ¬ cachedMark <:+: line

/-- The lines of the output. -/
def Listing.lines (l : Listing) : List Text :=
  l.before ++ l.header :: (l.members.map Member.line ++ l.blank ++ totalMark :: l.after)

/-- The first line with `TOTAL` reads `TOTAL pss dirty clean ...`. -/
def ReadsTotal (lines : List Text) (usage : Nat × Nat) : Prop :=
  ∃ (before : List Text) (line : Text) (after : List Text) (pss : Nat) (more : List Text),
    lines = before ++ line :: after ∧ (∀ l ∈ before, ¬ "TOTAL".toList <:+: l) ∧
      "TOTAL".toList <:+: line ∧
      words isIfs line =
        "TOTAL".toList :: decimal pss :: decimal usage.1 :: decimal usage.2 :: more

/-- The phone prints the listing, this much available memory, and for each listed process
the dirty and the clean memory of it; the sum stays within 64 bits. -/
structure Phone.Shows (phone : Phone) (l : Listing) (memAvailable : Nat)
    (usage : Nat → Nat × Nat) : Prop where
  listing : phone.dumpsysMeminfo = l.lines
  available : ∃ more, (grep "MemAvailable:".toList phone.procMeminfo).flatMap (words isIfs) =
    "MemAvailable:".toList :: decimal memAvailable :: more
  process : ∀ m ∈ l.members, ReadsTotal (phone.dumpsysMeminfoOf (decimal m.pid)) (usage m.pid)
  sum_lt : memAvailable + (l.members.map fun m => (usage m.pid).1 + (usage m.pid).2).sum < 2 ^ 63

/-- The state in which the script is to end. -/
def answer (l : Listing) (memAvailable : Nat) (usage : Nat → Nat × Nat) : State :=
  let sum := memAvailable + (l.members.map fun m => (usage m.pid).1 + (usage m.pid).2).sum
  { queries := l.members.map fun m => decimal m.pid
    printed := List.replicate l.members.length '.' ++ ".\n".toList ++
      ("Free mem: ".toList ++ decimal sum ++ ['\n'])
    cacheProcDirty := decimal sum }

/-- The key of the search stands before a word character somewhere in the text. -/
def HasKey (text : Text) : Prop :=
  ∃ c, isWordChar c = true ∧ pidKey ++ [c] <:+: text

/-- The search for the process number finds it, and nothing else: the key is not in the
name, nor behind the number, and the number ends where it should. -/
structure Member.Readable (m : Member) : Prop where
  name : ¬ HasKey (noBlanks m.name)
  rest : ¬ HasKey (noBlanks m.rest)
  number : ∀ c ∈ (noBlanks m.rest).head?, isWordChar c = false

/-! ## Section 2: Numbers and characters -/

theorem isDigit_of_mem_decimal {n : Nat} {c : Char} (h : c ∈ decimal n) : c.isDigit = true :=
  Nat.isDigit_of_mem_toDigits (by decide) (by decide) h

theorem decimal_ne_nil (n : Nat) : decimal n ≠ [] :=
  Nat.toDigits_ne_nil

theorem isWordChar_of_isDigit {c : Char} (h : c.isDigit = true) : isWordChar c = true := by
  simp [isWordChar, Char.isAlphanum, h]

theorem isIfs_of_isDigit {c : Char} (h : c.isDigit = true) : isIfs c = false := by
  simp only [isIfs, Bool.or_eq_false_iff, beq_eq_false_iff_ne]
  refine ⟨⟨?_, ?_⟩, ?_⟩ <;> rintro rfl <;> exact absurd h (by decide)

theorem isPattern_of_isDigit {c : Char} (h : c.isDigit = true) : isPattern c = false := by
  simp only [isPattern, Bool.or_eq_false_iff, beq_eq_false_iff_ne]
  refine ⟨⟨⟨?_, ?_⟩, ?_⟩, ?_⟩ <;> rintro rfl <;> exact absurd h (by decide)

/-- A number is a word that expands to itself. -/
theorem expand_decimal (sh : Shell) (n : Nat) : sh.expand (decimal n) = [decimal n] :=
  sh.expand_plain _ fun _ hc => isPattern_of_isDigit (isDigit_of_mem_decimal hc)

/-- Within 64 bits the shell prints the sum. -/
theorem number_of_lt {n : Nat} (h : n < 2 ^ 63) : number n = decimal n := by
  have hwrap : (n : Int).bmod (2 ^ 64) = n := Int.bmod_eq_of_le (by omega) (by omega)
  have hsign : ¬ (n : Int) < 0 := by omega
  simp only [number, hwrap, hsign, if_false, Int.natAbs_natCast]

theorem add_of_lt (sh : Shell) {x y z : Nat} (h : x + y + z < 2 ^ 63) :
    sh.add (decimal x) (decimal y) (decimal z) = some (decimal (x + y + z)) := by
  have hcast : (x : Int) + y + z = (x + y + z : Nat) := by push_cast; rfl
  rw [sh.add_decimal x y z (by omega) (by omega) (by omega), hcast, number_of_lt h]

/-! ## Section 3: The filter -/

/-- Before the header nothing is printed. -/
theorem cachedSection_unmarked {before : List Text}
    (h : ∀ line ∈ before, ¬ cachedMark <:+: line) (lines : List Text) :
    cachedSection false (before ++ lines) = cachedSection false lines := by
  induction before with
  | nil => rfl
  | cons line before ih =>
    have hline : occurs cachedMark line = false := occurs_eq_false.mpr (h line (by simp))
    have hrest := ih fun l hl => h l (by simp [hl])
    simp [cachedSection, hline, hrest]

/-- The header starts the section, whatever else it has. -/
theorem cachedSection_header {header : Text} (h : cachedMark <:+: header) (lines : List Text) :
    cachedSection false (header :: lines) = cachedSection true lines := by
  simp [cachedSection, occurs_eq_true.mpr h]

/-- Within the section every line is printed. -/
theorem cachedSection_inside {inside : List Text}
    (h : ∀ line ∈ inside, ¬ cachedMark <:+: line ∧ ¬ totalMark <:+: line) (lines : List Text) :
    cachedSection true (inside ++ lines) = inside ++ cachedSection true lines := by
  induction inside with
  | nil => rfl
  | cons line inside ih =>
    obtain ⟨hcached, htotal⟩ := h line (by simp)
    have hrest := ih fun l hl => h l (by simp [hl])
    simp [cachedSection, occurs_eq_false.mpr hcached, occurs_eq_false.mpr htotal, hrest]

/-- The total ends the section. -/
theorem cachedSection_total {after : List Text}
    (h : ∀ line ∈ after, ¬ cachedMark <:+: line) :
    cachedSection true (totalMark :: after) = [] := by
  have htotal : occurs totalMark totalMark = true := by simp
  have hcached : occurs cachedMark totalMark = false := by decide
  have hafter := cachedSection_unmarked h []
  simp only [List.append_nil] at hafter
  simp [cachedSection, htotal, hcached, hafter]

theorem not_infix_of_blank {pat line : Text} (hpat : ∃ c ∈ pat, c ≠ ' ')
    (hline : ∀ c ∈ line, c = ' ') : ¬ pat <:+: line := by
  obtain ⟨c, hc, hne⟩ := hpat
  exact fun h => hne (hline c (h.subset hc))

/-- The filter prints the lines of the listed processes, and the blank ones. -/
theorem cachedSection_lines (l : Listing) :
    cachedSection false l.lines = l.members.map Member.line ++ l.blank := by
  have hinside : ∀ line ∈ l.members.map Member.line ++ l.blank,
      ¬ cachedMark <:+: line ∧ ¬ totalMark <:+: line := by
    intro line hline
    rcases List.mem_append.mp hline with hline | hline
    · obtain ⟨m, hm, rfl⟩ := List.mem_map.mp hline
      exact l.members_unmarked m hm
    · have hblank := l.blank_blank line hline
      exact ⟨not_infix_of_blank (by decide) hblank, not_infix_of_blank (by decide) hblank⟩
  rw [Listing.lines, cachedSection_unmarked l.before_unmarked,
    cachedSection_header l.header_marked, cachedSection_inside hinside,
    cachedSection_total l.after_unmarked, List.append_nil]

/-! ## Section 4: One word for each process -/

@[simp] theorem noBlanks_append (a b : Text) : noBlanks (a ++ b) = noBlanks a ++ noBlanks b :=
  List.filter_append ..

theorem mem_noBlanks {text : Text} {c : Char} : c ∈ noBlanks text ↔ c ∈ text ∧ c ≠ ' ' := by
  simp [noBlanks]

theorem noBlanks_decimal (n : Nat) : noBlanks (decimal n) = decimal n := by
  refine List.filter_eq_self.mpr fun c hc => ?_
  have hblank : c ≠ ' ' := by
    rintro rfl
    exact absurd (isDigit_of_mem_decimal hc) (by decide)
  simpa using hblank

/-- The line of a process without its blanks. -/
theorem noBlanks_line (m : Member) :
    noBlanks m.line = noBlanks m.size ++ ':' :: (noBlanks m.name ++ '(' ::
      (pidKey ++ (decimal m.pid ++ noBlanks m.rest) ++ ')' :: [])) := by
  have hcolon : noBlanks ": ".toList = [':'] := rfl
  have hpid : noBlanks " (pid ".toList = '(' :: pidKey := rfl
  have hclose : noBlanks ")".toList = [')'] := rfl
  simp only [Member.line, noBlanks_append, noBlanks_decimal, hcolon, hpid, hclose,
    List.append_assoc, List.cons_append, List.nil_append]

/-- The characters of the size. -/
theorem Member.size_char (m : Member) {c : Char} (h : c ∈ m.size) :
    isPattern c = false ∧ c ≠ '\t' ∧ c ≠ '\n' ∧ c ≠ 'p' := by
  rcases m.size_digits c h with hdigit | hchar
  · refine ⟨isPattern_of_isDigit hdigit, ?_, ?_, ?_⟩ <;> rintro rfl <;>
      exact absurd hdigit (by decide)
  · have hall : ∀ c ∈ " ,KkB".toList, isPattern c = false ∧ c ≠ '\t' ∧ c ≠ '\n' ∧ c ≠ 'p' := by
      decide
    exact hall c hchar

/-- Without its blanks a line has no separators and no pattern characters. -/
theorem line_char (m : Member) {c : Char} (h : c ∈ noBlanks m.line) :
    isIfs c = false ∧ isPattern c = false := by
  have hplain : ∀ {c : Char}, c ≠ ' ' → c ≠ '\t' → c ≠ '\n' → isIfs c = false := by
    intro c hblank htab hnewline
    simp [isIfs, hblank, htab, hnewline]
  rw [noBlanks_line] at h
  simp only [List.mem_append, List.mem_cons, List.not_mem_nil, or_false] at h
  -- one case for each part of the line
  rcases h with hsize | rfl | hname | rfl | (hkey | hpid | hrest) | rfl
  · obtain ⟨hmem, hblank⟩ := mem_noBlanks.mp hsize
    obtain ⟨hpattern, htab, hnewline, -⟩ := m.size_char hmem
    exact ⟨hplain hblank htab hnewline, hpattern⟩
  · decide
  · obtain ⟨hmem, hblank⟩ := mem_noBlanks.mp hname
    obtain ⟨htab, hnewline, hpattern⟩ := m.name_plain c hmem
    exact ⟨hplain hblank htab hnewline, hpattern⟩
  · decide
  · have hall : ∀ c ∈ pidKey, isIfs c = false ∧ isPattern c = false := by decide
    exact hall c hkey
  · have hdigit := isDigit_of_mem_decimal hpid
    exact ⟨isIfs_of_isDigit hdigit, isPattern_of_isDigit hdigit⟩
  · obtain ⟨hmem, hblank⟩ := mem_noBlanks.mp hrest
    obtain ⟨htab, hnewline, hpattern⟩ := m.rest_plain c hmem
    exact ⟨hplain hblank htab hnewline, hpattern⟩
  · decide

/-- The line of a process becomes one word of the array. -/
theorem array_line (sh : Shell) (m : Member) :
    (words isIfs (noBlanks m.line)).flatMap sh.expand = [noBlanks m.line] := by
  have hne : noBlanks m.line ≠ [] := by simp [noBlanks_line]
  rw [words_singleton (fun c hc => (line_char m hc).1) hne, List.flatMap_singleton,
    sh.expand_plain _ fun c hc => (line_char m hc).2]

/-- A blank line becomes none. -/
theorem noBlanks_blank {line : Text} (h : ∀ c ∈ line, c = ' ') : noBlanks line = [] := by
  simpa [noBlanks, List.filter_eq_nil_iff] using h

/-- The array has one word for each process of the listing. -/
theorem cachedProcessArray_listing (sh : Shell) {phone : Phone} {l : Listing}
    (h : phone.dumpsysMeminfo = l.lines) :
    cachedProcessArray sh phone = l.members.map fun m => noBlanks m.line := by
  have hmembers : ∀ ms : List Member,
      sh.array ((ms.map Member.line).map noBlanks) = ms.map fun m => noBlanks m.line := by
    intro ms
    induction ms with
    | nil => rfl
    | cons m ms ih =>
      simp only [Shell.array, List.map_cons, List.flatMap_cons, List.flatMap_append,
        array_line] at ih ⊢
      rw [ih, List.singleton_append]
  -- the blank lines that the section ends with give no words
  have hblank : sh.array (l.blank.map noBlanks) = [] := by
    have hnil : ∀ line ∈ l.blank.map noBlanks, words isIfs line = [] := by
      intro line hline
      obtain ⟨blank, hmem, rfl⟩ := List.mem_map.mp hline
      rw [noBlanks_blank (l.blank_blank blank hmem), words_nil]
    simp [Shell.array, List.flatMap_eq_nil_iff.mpr hnil]
  have happend : ∀ a b : List Text, sh.array (a ++ b) = sh.array a ++ sh.array b := by
    intro a b
    simp [Shell.array, List.flatMap_append]
  rw [cachedProcessArray, h, cachedSection_lines, List.map_append, happend, hmembers, hblank,
    List.append_nil]

/-! ## Section 5: The search for the process number -/

theorem pidKey_ne_nil : pidKey ≠ [] := by decide

theorem isWordChar_of_mem_pidKey : ∀ c ∈ pidKey, isWordChar c = true := by decide

/-- The search finds nothing exactly where the key stands before no word. -/
theorem matchesAfter_pidKey_eq_nil (text : Text) :
    matchesAfter pidKey isWordChar text = [] ↔ ¬ HasKey text := by
  rw [matchesAfter_eq_nil_iff pidKey_ne_nil, HasKey]
  push Not
  rfl

/-- There is no key in the size. -/
theorem matchesAfter_size (m : Member) :
    matchesAfter pidKey isWordChar (noBlanks m.size) = [] := by
  rw [matchesAfter_pidKey_eq_nil]
  rintro ⟨c, -, hinfix⟩
  have hp : 'p' ∈ noBlanks m.size := hinfix.subset (List.mem_append_left _ (by decide))
  exact (m.size_char (mem_noBlanks.mp hp).1).2.2.2 rfl

/-- All matches in the line of a process: those in the name, the number with what goes on
without a gap, and those behind it. -/
theorem matchesAfter_line (m : Member) :
    matchesAfter pidKey isWordChar (noBlanks m.line) =
      matchesAfter pidKey isWordChar (noBlanks m.name) ++
        (decimal m.pid ++ (noBlanks m.rest).takeWhile isWordChar) ::
          matchesAfter pidKey isWordChar ((noBlanks m.rest).dropWhile isWordChar) := by
  -- `:`, `(` and `)` are outside words, so the search goes through the parts one by one
  have hcut : ∀ c, isWordChar c = false → ∀ a b : Text,
      matchesAfter pidKey isWordChar (a ++ c :: b) =
        matchesAfter pidKey isWordChar a ++ matchesAfter pidKey isWordChar b :=
    fun c hc a b => matchesAfter_append_cons pidKey_ne_nil isWordChar_of_mem_pidKey hc a b
  have hnumber : ∀ c ∈ decimal m.pid, isWordChar c = true :=
    fun c hc => isWordChar_of_isDigit (isDigit_of_mem_decimal hc)
  rw [noBlanks_line, hcut ':' rfl, matchesAfter_size, List.nil_append, hcut '(' rfl,
    hcut ')' rfl, matchesAfter_nil, List.append_nil,
    matchesAfter_key pidKey_ne_nil hnumber (decimal_ne_nil _)]

/-- The number ends where it should exactly if nothing goes on without a gap. -/
theorem takeWhile_eq_nil_iff_head {text : Text} :
    text.takeWhile isWordChar = [] ↔ ∀ c ∈ text.head?, isWordChar c = false := by
  cases text with
  | nil => simp
  | cons c text => simp [List.takeWhile_cons]

/-- Readable processes have one match, their number, and they are the only ones. -/
theorem matchesAfter_line_eq_iff (m : Member) :
    matchesAfter pidKey isWordChar (noBlanks m.line) = [decimal m.pid] ↔ m.Readable := by
  rw [matchesAfter_line, List.append_eq_singleton_iff]
  constructor
  -- the one match is that of the number, since the number is always matched
  · rintro (⟨hname, hmatch⟩ | ⟨-, hmatch⟩)
    · obtain ⟨hnumber, hrest⟩ := List.cons_eq_cons.mp hmatch
      have htake : (noBlanks m.rest).takeWhile isWordChar = [] := by simpa using hnumber
      have hdrop : (noBlanks m.rest).dropWhile isWordChar = noBlanks m.rest := by
        simpa [htake] using List.takeWhile_append_dropWhile (p := isWordChar) (l := noBlanks m.rest)
      rw [hdrop] at hrest
      exact ⟨(matchesAfter_pidKey_eq_nil _).mp hname, (matchesAfter_pidKey_eq_nil _).mp hrest,
        takeWhile_eq_nil_iff_head.mp htake⟩
    · exact absurd hmatch (List.cons_ne_nil _ _)
  · intro h
    have htake : (noBlanks m.rest).takeWhile isWordChar = [] :=
      takeWhile_eq_nil_iff_head.mpr h.number
    have hdrop : (noBlanks m.rest).dropWhile isWordChar = noBlanks m.rest := by
      simpa [htake] using List.takeWhile_append_dropWhile (p := isWordChar) (l := noBlanks m.rest)
    refine Or.inl ⟨(matchesAfter_pidKey_eq_nil _).mpr h.name, ?_⟩
    rw [htake, hdrop, (matchesAfter_pidKey_eq_nil _).mpr h.rest, List.append_nil]

/-- Several matches are printed on several lines: the shell does not take them for one. -/
theorem pidOf_eq_some_iff {word pid : Text} (hpid : '\n' ∉ pid) :
    pidOf word = some pid ↔ matchesAfter pidKey isWordChar word = [pid] := by
  -- a match is a word and has no newline: the lines of the output are the matches
  have hline : ∀ found ∈ matchesAfter pidKey isWordChar word, '\n' ∉ found := by
    intro found hfound hnewline
    have hword := run_of_mem_matchesAfter pidKey_ne_nil hfound '\n' hnewline
    exact absurd hword (by decide)
  unfold pidOf
  split
  · rename_i hnil
    simp [hnil]
  · rename_i found hne
    rw [Option.some_inj]
    constructor
    · intro h
      calc matchesAfter pidKey isWordChar word
          = (['\n'].intercalate (matchesAfter pidKey isWordChar word)).splitOn '\n' :=
            (List.splitOn_intercalate '\n' hline hne).symm
        _ = pid.splitOn '\n' := by rw [h]
        _ = [pid] := List.splitOn_eq_singleton hpid
    · intro h
      rw [h, List.intercalate_singleton]

/-- The script asks for the listed number exactly if the process is readable. -/
theorem pidOf_line_iff (m : Member) :
    pidOf (noBlanks m.line) = some (decimal m.pid) ↔ m.Readable := by
  have hnewline : '\n' ∉ decimal m.pid :=
    fun h => absurd (isDigit_of_mem_decimal h) (by decide)
  rw [pidOf_eq_some_iff hnewline, matchesAfter_line_eq_iff]

/-! ## Section 6: One turn of the loop -/

/-- A turn that goes through has asked for one number, the one found in its word. -/
theorem turn_queries {sh : Shell} {phone : Phone} {st st' : State} {word : Text}
    (h : turn sh phone st word = .ok st') :
    ∃ pid, pidOf word = some pid ∧ st'.queries = st.queries ++ [pid] := by
  simp only [turn] at h
  split at h
  · cases h
  -- only a turn with a number, a memory line and a sum goes through
  · rename_i pid hpid
    refine ⟨pid, hpid, ?_⟩
    split at h
    · cases h
    · split at h
      · split at h
        · cases h
        · cases h
          rfl
      · cases h

/-- The memory of a process as the array of the loop has it. -/
theorem array_readsTotal (sh : Shell) {lines : List Text} {usage : Nat × Nat}
    (h : ReadsTotal lines usage) :
    ∃ (line : Text) (rest : List Text) (total pss : Text) (more : List Text),
      grep "TOTAL".toList lines = line :: rest ∧
        sh.array (line :: rest) = total :: pss :: decimal usage.1 :: decimal usage.2 :: more := by
  obtain ⟨before, line, after, pss, more, rfl, hbefore, hline, hwords⟩ := h
  have htotal : sh.expand "TOTAL".toList = ["TOTAL".toList] := sh.expand_plain _ (by decide)
  refine ⟨line, grep "TOTAL".toList after, "TOTAL".toList, decimal pss, more.flatMap sh.expand ++
    sh.array (grep "TOTAL".toList after), grep_first hbefore hline, ?_⟩
  simp only [Shell.array, List.flatMap_cons, List.flatMap_append, hwords, htotal, expand_decimal,
    List.cons_append, List.nil_append]

/-- A turn for a readable process asks for its number and adds its memory. -/
theorem turn_readable (sh : Shell) {phone : Phone} {m : Member} {usage : Nat × Nat}
    (hm : m.Readable) (husage : ReadsTotal (phone.dumpsysMeminfoOf (decimal m.pid)) usage)
    (queries : List Text) (printed : Text) {sum : Nat}
    (hsum : sum + usage.1 + usage.2 < 2 ^ 63) :
    turn sh phone ⟨queries, printed, decimal sum⟩ (noBlanks m.line) =
      .ok ⟨queries ++ [decimal m.pid], printed ++ ['.'], decimal (sum + usage.1 + usage.2)⟩ := by
  have hpid := (pidOf_line_iff m).mpr hm
  obtain ⟨line, rest, total, pss, more, hgrep, harray⟩ := array_readsTotal sh husage
  have hadd := add_of_lt sh hsum
  simp only [turn, hpid, hgrep, harray, State.print, State.query, hadd]
  rfl

/-! ## Section 7: The whole loop -/

/-- A loop that goes through has asked for one number for each word. -/
theorem foldlM_queries {sh : Shell} {phone : Phone} {array : List Text} {st st' : State}
    (h : array.foldlM (turn sh phone) st = .ok st') :
    ∃ pids, array.map pidOf = pids.map some ∧ st'.queries = st.queries ++ pids := by
  induction array generalizing st with
  | nil =>
    cases h
    exact ⟨[], rfl, (List.append_nil _).symm⟩
  | cons word array ih =>
    rw [List.foldlM_cons] at h
    cases hturn : turn sh phone st word with
    | error st₁ => rw [hturn] at h; cases h
    | ok st₁ =>
      rw [hturn] at h
      obtain ⟨pid, hpid, hqueries⟩ := turn_queries hturn
      obtain ⟨pids, hpids, hrest⟩ := ih h
      refine ⟨pid :: pids, by simp [hpid, hpids], ?_⟩
      rw [hrest, hqueries, List.append_assoc, List.singleton_append]

/-- The loop over readable processes adds up their memory. -/
theorem foldlM_turn (sh : Shell) {phone : Phone} {usage : Nat → Nat × Nat} {ms : List Member}
    (hms : ∀ m ∈ ms, m.Readable)
    (husage : ∀ m ∈ ms, ReadsTotal (phone.dumpsysMeminfoOf (decimal m.pid)) (usage m.pid))
    (queries : List Text) (printed : Text) {sum : Nat}
    (hsum : sum + (ms.map fun m => (usage m.pid).1 + (usage m.pid).2).sum < 2 ^ 63) :
    (ms.map fun m => noBlanks m.line).foldlM (turn sh phone) ⟨queries, printed, decimal sum⟩ =
      .ok ⟨queries ++ ms.map fun m => decimal m.pid, printed ++ List.replicate ms.length '.',
        decimal (sum + (ms.map fun m => (usage m.pid).1 + (usage m.pid).2).sum)⟩ := by
  induction ms generalizing queries printed sum with
  | nil =>
    simp only [List.map_nil, List.foldlM_nil, List.append_nil, List.length_nil,
      List.replicate_zero, List.sum_nil, Nat.add_zero]
    rfl
  | cons m ms ih =>
    simp only [List.map_cons, List.sum_cons] at hsum ⊢
    -- the partial sums stay below the limit of the shell's numbers
    have hnow : sum + (usage m.pid).1 + (usage m.pid).2 < 2 ^ 63 := by omega
    have hlater : sum + (usage m.pid).1 + (usage m.pid).2 +
        (ms.map fun m => (usage m.pid).1 + (usage m.pid).2).sum < 2 ^ 63 := by omega
    have hturn := turn_readable sh (hms m (by simp)) (husage m (by simp)) queries printed hnow
    have hrest := ih (fun m' hm' => hms m' (by simp [hm'])) (fun m' hm' => husage m' (by simp [hm']))
      (queries ++ [decimal m.pid]) (printed ++ ['.']) hlater
    have hassoc : ∀ n : Nat, sum + (usage m.pid).1 + (usage m.pid).2 + n =
        sum + ((usage m.pid).1 + (usage m.pid).2 + n) := by
      intro n
      omega
    rw [List.foldlM_cons, hturn]
    -- the two ways of writing the sum and the lists are the same
    refine hrest.trans ?_
    rw [hassoc, List.length_cons, List.replicate_succ, List.append_assoc, List.append_assoc,
      List.singleton_append, List.singleton_append]

/-! ## Section 8: The script -/

/-- The script up to the loop: the loop starts from the available memory. -/
theorem getFreeMem_eq (sh : Shell) {phone : Phone} {l : Listing} {memAvailable : Nat}
    {usage : Nat → Nat × Nat} (h : phone.Shows l memAvailable usage) :
    getFreeMem sh phone =
      ((l.members.map fun m => noBlanks m.line).foldlM (turn sh phone)
        ⟨[], [], decimal memAvailable⟩).map fun st =>
          (st.print ".\n".toList).print ("Free mem: ".toList ++ st.cacheProcDirty ++ ['\n']) := by
  obtain ⟨more, hmore⟩ := h.available
  have harray := cachedProcessArray_listing sh h.listing
  have hmem : sh.expand "MemAvailable:".toList = ["MemAvailable:".toList] :=
    sh.expand_plain _ (by decide)
  unfold getFreeMem
  simp only [harray]
  -- `/proc/meminfo` has the line, or nothing could start with its word
  cases hgrep : grep "MemAvailable:".toList phone.procMeminfo with
  | nil =>
    rw [hgrep, List.flatMap_nil] at hmore
    cases hmore
  | cons line rest =>
    rw [hgrep] at hmore
    simp only [Shell.array, hmore, List.flatMap_cons, hmem, expand_decimal, List.singleton_append]
    cases (l.members.map fun m => noBlanks m.line).foldlM (turn sh phone)
      ⟨[], [], decimal memAvailable⟩ with
    | error st => rfl
    | ok st => rfl

/-- The script asks for the listed processes and prints the right sum exactly if every
listed process is readable. -/
theorem getFreeMem_iff (sh : Shell) (phone : Phone) (l : Listing) (memAvailable : Nat)
    (usage : Nat → Nat × Nat) (h : phone.Shows l memAvailable usage) :
    getFreeMem sh phone = .ok (answer l memAvailable usage) ↔ ∀ m ∈ l.members, m.Readable := by
  rw [getFreeMem_eq sh h]
  constructor
  -- a loop that goes through has asked for what it found in each word, the listed number
  · intro hanswer
    cases hloop : (l.members.map fun m => noBlanks m.line).foldlM (turn sh phone)
      ⟨[], [], decimal memAvailable⟩ with
    | error st => rw [hloop] at hanswer; cases hanswer
    | ok st =>
      rw [hloop] at hanswer
      have hqueries : st.queries = l.members.map fun m => decimal m.pid :=
        congrArg State.queries (Except.ok.inj hanswer)
      obtain ⟨pids, hpids, hst⟩ := foldlM_queries hloop
      rw [List.nil_append, hqueries] at hst
      rw [← hst, List.map_map, List.map_map] at hpids
      intro m hm
      exact (pidOf_line_iff m).mp (List.map_eq_map_iff.mp hpids m hm)
  · intro hreadable
    rw [foldlM_turn sh hreadable h.process [] [] h.sum_lt]
    rfl

/-! ## Section 9: Two phones -/

/-- A shell in a directory without files, that adds decimal texts. -/
def plainShell : Shell where
  expand word := [word]
  expand_plain _ _ := rfl
  add x y z := some (number (Nat.ofDigitChars 10 x 0 + Nat.ofDigitChars 10 y 0 +
    Nat.ofDigitChars 10 z 0))
  add_decimal x y z _ _ _ := by simp [decimal, Nat.ofDigitChars_ten_toDigits]

/-- A listing with one cached process. -/
def oneProcess (m : Member) (h : ¬ cachedMark <:+: m.line ∧ ¬ totalMark <:+: m.line) : Listing where
  before := ["Total PSS by OOM adjustment:".toList]
  header := "    9,640K: Cached".toList
  members := [m]
  blank := [[]]
  after := ["   52,126K: Native".toList]
  before_unmarked := by decide
  header_marked := by decide
  members_unmarked := by simpa using h
  blank_blank := by decide
  after_unmarked := by decide

/-- A phone with this listing, on which every process has 200 kB dirty and 100 kB clean. -/
def phoneWith (l : Listing) : Phone where
  dumpsysMeminfo := l.lines
  procMeminfo := ["MemTotal:    4096 kB".toList, "MemAvailable:    1000 kB".toList]
  dumpsysMeminfoOf _ := ["   Pss   Private".toList, "  TOTAL   340   200   100   0".toList]

theorem phoneWith_shows (m : Member) (h : ¬ cachedMark <:+: m.line ∧ ¬ totalMark <:+: m.line) :
    (phoneWith (oneProcess m h)).Shows (oneProcess m h) 1000 fun _ => (200, 100) where
  listing := rfl
  available := by
    refine ⟨["kB".toList], ?_⟩
    show (grep "MemAvailable:".toList ["MemTotal:    4096 kB".toList,
      "MemAvailable:    1000 kB".toList]).flatMap (words isIfs) = _
    decide
  process _ _ := ⟨["   Pss   Private".toList], "  TOTAL   340   200   100   0".toList, [], 340,
    ["0".toList], rfl, by decide, by decide, by decide⟩
  sum_lt := by simp [oneProcess]

/-- A process whose name has no key. -/
def cameraProcess : Member :=
  ⟨"   9,640K".toList, "com.android.camera".toList, 2310, " / activities".toList, by decide,
    by unfold Plain; decide, by unfold Plain; decide⟩

theorem getFreeMem_iff_camera :
    getFreeMem plainShell (phoneWith (oneProcess cameraProcess (by decide))) =
        .ok (answer (oneProcess cameraProcess (by decide)) 1000 fun _ => (200, 100)) ↔
      ∀ m ∈ (oneProcess cameraProcess (by decide)).members, m.Readable :=
  getFreeMem_iff plainShell _ _ 1000 _ (phoneWith_shows _ _)

/-- A process whose name has the key before a digit. -/
def rapid7Process : Member :=
  ⟨"   9,640K".toList, "com.rapid7.mobile".toList, 2310, [], by decide,
    by unfold Plain; decide, by unfold Plain; decide⟩

/-- The script asks for `7` and `2310` at once. -/
theorem getFreeMem_rapid7 :
    (phoneWith (oneProcess rapid7Process (by decide))).Shows
        (oneProcess rapid7Process (by decide)) 1000 (fun _ => (200, 100)) ∧
      getFreeMem plainShell (phoneWith (oneProcess rapid7Process (by decide))) ≠
        .ok (answer (oneProcess rapid7Process (by decide)) 1000 fun _ => (200, 100)) := by
  refine ⟨phoneWith_shows _ _, ?_⟩
  intro h
  have hqueries := congrArg (fun r => r.toOption.map State.queries) h
  revert hqueries
  decide +kernel

end Udroid.FreeMem
