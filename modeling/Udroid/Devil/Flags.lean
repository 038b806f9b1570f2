import Udroid.Devil.RunShell

/-!
# Command line flags in a file

`_SerializeFlags` writes flags into one line and `_ParseFlags` reads them back, with quotes around
what needs them and backslashes before the quotes inside.

- `feed`, `parseFlags`: the reader, one character at a time.
- `quoteFlag`, `serializeFlags`: the writer.
- `parseFlags_serializeFlags_iff`: flags are read back as they were if and only if none is empty and
  none ends with a backslash.
-/

namespace Udroid.Devil

open Udroid.Unix

/-! ## Section 1: The reader -/

def isQuote (c : Char) : Bool := c == '"' || c == '\''

/-- What `_ParseFlags` keeps while it reads. -/
structure Tokens where
  currentQuote : Option Char
  currentFlag : Option Text
  flags : List Text

/-- A quote starts or ends a block. -/
def Tokens.toggle (st : Tokens) (c : Char) : Tokens :=
  { st with currentQuote := if st.currentQuote = none then some c else none }

/-- One turn of the loop of `_ParseFlags`. -/
def Tokens.feed (st : Tokens) (c : Char) : Tokens :=
  if st.currentQuote = none ∧ isQuote c = true ∨ st.currentQuote = some c then
    match st.currentFlag with
    | some flag =>
        if flag.getLast? = some '\\' then { st with currentFlag := some (flag.dropLast ++ [c]) }
        else st.toggle c
    | none => st.toggle c
  else if st.currentQuote = none ∧ isSpace c = true then
    { st with currentFlag := none, flags := st.flags ++ st.currentFlag.toList }
  else { st with currentFlag := some (st.currentFlag.getD [] ++ [c]) }

def Tokens.feedAll (st : Tokens) (text : Text) : Tokens := text.foldl Tokens.feed st

/-- All tokens, at the end of the line. -/
def Tokens.all (st : Tokens) : List Text := st.flags ++ st.currentFlag.toList

/-- `_ParseFlags`; the first token is the name of the program. -/
def parseFlags (line : Text) : List Text := (Tokens.feedAll ⟨none, none, []⟩ line).all.drop 1

/-! ## Section 2: The writer -/

/-- The characters that need no quotes: not `[^\w-]`. -/
def isFlagChar (c : Char) : Bool := c.isAlphanum || c == '_' || c == '-'

def needsQuoting (text : Text) : Bool := text.any fun c => !isFlagChar c

/-- `text.replace('"', r'\"')` -/
def escapeQuotes (text : Text) : Text := text.flatMap fun c => if c = '"' then ['\\', '"'] else [c]

def inQuotes (text : Text) : Text := '"' :: escapeQuotes text ++ ['"']

/-- `_QuoteFlag` -/
def quoteFlag (flag : Text) : Text :=
  let key := flag.takeWhile (· ≠ '=')
  let value := (flag.dropWhile (· ≠ '=')).tail
  if flag = [] ∨ needsQuoting key = true then inQuotes flag
  else if '=' ∉ flag then key
  else key ++ '=' :: if needsQuoting value then inQuotes value else value

/-- `_SerializeFlags` -/
def serializeFlags (flags : List Text) : Option Text :=
  if flags = [] then none else some ([' '].intercalate (['_'] :: flags.map quoteFlag))

/-! ## Section 3: What the writer writes -/

/-- A character that the reader takes as it is. -/
def isPlain (c : Char) : Bool := isFlagChar c || c == '='

theorem plain_of_not_needsQuoting {text : Text} (h : needsQuoting text = false) :
    ∀ c ∈ text, isPlain c = true := by
  intro c hc
  have hflag := List.any_eq_false.mp h c hc
  rw [isPlain]
  simpa using Or.inl hflag

theorem splitAt_equals {key : Text} (hnot : '=' ∉ key) (value : Text) :
    (key ++ '=' :: value).takeWhile (· ≠ '=') = key ∧
      (key ++ '=' :: value).dropWhile (· ≠ '=') = '=' :: value := by
  have hall : ∀ c ∈ key, decide (c ≠ '=') = true := by
    intro c hc
    exact decide_eq_true fun heq => hnot (heq ▸ hc)
  constructor
  · rw [List.takeWhile_append_of_pos hall, List.takeWhile_cons_of_neg (by simp), List.append_nil]
  · rw [List.dropWhile_append_of_pos hall, List.dropWhile_cons_of_neg (by simp)]

/-- A flag is written as it is, or a part of it is in quotes. -/
theorem quoteFlag_cases (flag : Text) :
    (flag ≠ [] ∧ (∀ c ∈ flag, isPlain c = true) ∧ quoteFlag flag = flag) ∨
      ∃ before text, flag = before ++ text ∧ (∀ c ∈ before, isPlain c = true) ∧
        quoteFlag flag = before ++ inQuotes text ∧ (text = [] → flag = []) := by
  by_cases hwhole : flag = [] ∨ needsQuoting (flag.takeWhile (· ≠ '=')) = true
  · right
    exact ⟨[], flag, rfl, fun c hc => absurd hc List.not_mem_nil, if_pos hwhole, id⟩
  · obtain ⟨hne, hkey⟩ := not_or.mp hwhole
    have hplain := plain_of_not_needsQuoting (Bool.eq_false_iff.mpr hkey)
    by_cases heq : '=' ∈ flag
    · obtain ⟨key, value, rfl, hnot⟩ := List.eq_append_cons_of_mem heq
      obtain ⟨htake, hdrop⟩ := splitAt_equals hnot value
      rw [htake] at hplain hwhole
      have hbefore : ∀ c ∈ key ++ ['='], isPlain c = true := by
        intro c hc
        rcases List.mem_append.mp hc with hc | hc
        · exact hplain c hc
        · rw [List.mem_singleton.mp hc]
          rfl
      cases hvalue : needsQuoting value with
      | true =>
        right
        refine ⟨key ++ ['='], value, by simp, hbefore, ?_, ?_⟩
        · rw [quoteFlag, htake, hdrop, if_neg hwhole, if_neg (not_not_intro heq), List.tail_cons,
            hvalue, if_pos rfl, List.append_assoc, List.singleton_append]
        · rintro rfl
          cases hvalue
      | false =>
        left
        refine ⟨hne, fun c hc => ?_, ?_⟩
        · rw [List.append_cons] at hc
          rcases List.mem_append.mp hc with hc | hc
          · exact hbefore c hc
          · exact plain_of_not_needsQuoting hvalue c hc
        · rw [quoteFlag, htake, hdrop, if_neg hwhole, if_neg (not_not_intro heq), List.tail_cons,
            hvalue, if_neg Bool.false_ne_true]
    · left
      have htake : flag.takeWhile (· ≠ '=') = flag :=
        List.takeWhile_eq_self_iff.mpr fun c hc => decide_eq_true fun hc' => heq (hc' ▸ hc)
      rw [htake] at hplain
      refine ⟨hne, hplain, ?_⟩
      rw [quoteFlag, if_neg hwhole, if_pos heq, htake]

/-! ## Section 4: What the reader reads -/

theorem feedAll_append (st : Tokens) (text text' : Text) :
    st.feedAll (text ++ text') = (st.feedAll text).feedAll text' :=
  List.foldl_append

theorem feedAll_cons (st : Tokens) (c : Char) (text : Text) :
    st.feedAll (c :: text) = (st.feed c).feedAll text := rfl

/-- What a plain character is not. -/
theorem plain_char {c : Char} (h : isPlain c = true) :
    isQuote c = false ∧ isSpace c = false ∧ c ≠ '\\' := by
  have hclass : c.isAlphanum ∨ c = '_' ∨ c = '-' ∨ c = '=' := by
    simpa [isPlain, isFlagChar, or_assoc] using h
  rcases hclass with halnum | rfl | rfl | rfl
  · have hnot : ∀ d : Char, d.isAlphanum = false → c ≠ d := by
      rintro d hd rfl
      exact absurd (hd.symm.trans halnum) Bool.false_ne_true
    refine ⟨?_, ?_, hnot _ rfl⟩
    · rw [isQuote, beq_eq_false_iff_ne.mpr (hnot '"' rfl), beq_eq_false_iff_ne.mpr (hnot '\'' rfl)]
      rfl
    · rw [isSpace, Bool.eq_false_iff]
      intro hmem
      have hspace : ∀ d ∈ " \t\n\r\x0b\x0c".toList, d.isAlphanum = false := by decide
      exact hnot c (hspace c (List.elem_iff.mp hmem)) rfl
  · decide
  · decide
  · decide

/-- The flag so far, if there is one, with more characters. -/
def Tokens.push (st : Tokens) (text : Text) : Tokens :=
  if text = [] then st else { st with currentFlag := some (st.currentFlag.getD [] ++ text) }

theorem push_append (st : Tokens) (text text' : Text) :
    (st.push text).push text' = st.push (text ++ text') := by
  unfold Tokens.push
  by_cases htext : text = []
  · subst htext
    simp
  · by_cases htext' : text' = []
    · subst htext'
      simp
    · simp [htext, htext']

theorem push_quote (st : Tokens) (text : Text) : (st.push text).currentQuote = st.currentQuote := by
  unfold Tokens.push
  split <;> rfl

/-- Outside quotes plain characters are taken as they are. -/
theorem feedAll_plain {st : Tokens} (hquote : st.currentQuote = none) {text : Text}
    (h : ∀ c ∈ text, isPlain c = true) : st.feedAll text = st.push text := by
  induction text generalizing st with
  | nil => rfl
  | cons c text ih =>
    obtain ⟨hq, hspace, -⟩ := plain_char (h c List.mem_cons_self)
    have hfeed : st.feed c = st.push [c] := by
      simp [Tokens.feed, Tokens.push, hquote, hq, hspace]
    rw [feedAll_cons, hfeed, ih ((push_quote st [c]).trans hquote) fun d hd =>
      h d (List.mem_cons_of_mem c hd), push_append, List.singleton_append]

/-- Inside quotes an escaped text is taken as it was. -/
theorem feedAll_escapeQuotes {st : Tokens} (hquote : st.currentQuote = some '"') (text : Text) :
    st.feedAll (escapeQuotes text) = st.push text := by
  induction text generalizing st with
  | nil => rfl
  | cons c text ih =>
    have hrest : ∀ st' : Tokens, st' = st.push [c] →
        st'.feedAll (escapeQuotes text) = st.push (c :: text) := by
      rintro st' rfl
      rw [ih ((push_quote st [c]).trans hquote), push_append, List.singleton_append]
    by_cases hc : c = '"'
    · -- the backslash is taken, and is replaced by the quote behind it
      subst hc
      have hbackslash : st.feed '\\' = st.push ['\\'] := by
        simp [Tokens.feed, Tokens.push, hquote]
      have hfeed : (st.feed '\\').feed '"' = st.push ['"'] := by
        rw [hbackslash]
        simp [Tokens.feed, Tokens.push, hquote]
      exact hrest _ hfeed
    · have hfeed : st.feed c = st.push [c] := by
        simp [Tokens.feed, Tokens.push, hquote, Ne.symm hc]
      have htext : escapeQuotes (c :: text) = c :: escapeQuotes text := by
        rw [escapeQuotes, List.flatMap_cons, if_neg hc, List.singleton_append, escapeQuotes]
      rw [htext]
      exact hrest _ hfeed

/-- A quote starts or ends a block, if no backslash stands before it. -/
theorem feed_toggle {st : Tokens} (hquote : st.currentQuote = none ∨ st.currentQuote = some '"')
    (hflag : ∀ flag, st.currentFlag = some flag → flag.getLast? ≠ some '\\') :
    st.feed '"' = st.toggle '"' := by
  have hblock : st.currentQuote = none ∧ isQuote '"' = true ∨ st.currentQuote = some '"' :=
    hquote.imp_left fun h => ⟨h, rfl⟩
  rw [Tokens.feed, if_pos hblock]
  cases hcurrent : st.currentFlag with
  | none => rfl
  | some flag => exact if_neg (hflag flag hcurrent)

/-- A flag that starts behind a blank and is written by the writer. -/
theorem feedAll_quoteFlag (flags : List Text) (flag : Text) :
    Tokens.feedAll ⟨none, none, flags⟩ (quoteFlag flag) =
      if flag = [] then ⟨none, none, flags⟩
      else if flag.getLast? = some '\\' then ⟨some '"', some (flag.dropLast ++ ['"']), flags⟩
      else ⟨none, some flag, flags⟩ := by
  rcases quoteFlag_cases flag with ⟨hne, hplain, hquoted⟩ | ⟨before, text, rfl, hplain, hquoted, htext⟩
  · have hlast : flag.getLast? ≠ some '\\' := fun hlast =>
      (plain_char (hplain _ (List.mem_of_getLast? hlast))).2.2 rfl
    rw [hquoted, feedAll_plain rfl hplain, if_neg hne, if_neg hlast, Tokens.push, if_neg hne]
    rfl
  · rw [hquoted, feedAll_append, feedAll_plain rfl hplain, inQuotes, List.cons_append, feedAll_cons,
      feedAll_append]
    have hopen : (Tokens.push ⟨none, none, flags⟩ before).feed '"' =
        Tokens.push ⟨some '"', none, flags⟩ before := by
      rw [feed_toggle (Or.inl (push_quote _ _))]
      · unfold Tokens.push Tokens.toggle
        split <;> rfl
      · intro flag hflag hlast
        unfold Tokens.push at hflag
        split at hflag
        · cases hflag
        · obtain rfl : before = flag := Option.some.inj hflag
          exact (plain_char (hplain _ (List.mem_of_getLast? hlast))).2.2 rfl
    rw [hopen, feedAll_escapeQuotes (push_quote _ _), push_append]
    generalize before ++ text = flag
    by_cases hnil : flag = []
    · subst hnil
      rfl
    · have hpush : Tokens.push ⟨some '"', none, flags⟩ flag = ⟨some '"', some flag, flags⟩ := by
        rw [Tokens.push, if_neg hnil]
        rfl
      rw [hpush, if_neg hnil]
      by_cases hlast : flag.getLast? = some '\\'
      · -- the quote that ends the block is taken for one of the flag
        rw [if_pos hlast, feedAll_cons, Tokens.feed, if_pos (Or.inr rfl)]
        exact if_pos hlast
      · rw [if_neg hlast, feedAll_cons, feed_toggle (Or.inr rfl)]
        · rfl
        · intro flag' hflag'
          obtain rfl : flag = flag' := Option.some.inj hflag'
          exact hlast

/-! ## Section 5: Flags that are read back -/

/-- A flag that is read back as it was. -/
def Quotable (flag : Text) : Prop := flag ≠ [] ∧ flag.getLast? ≠ some '\\'

instance (flag : Text) : Decidable (Quotable flag) := inferInstanceAs (Decidable (_ ∧ _))

theorem serializeFlags_eq {flags : List Text} (hne : flags ≠ []) :
    serializeFlags flags = some ('_' :: flags.flatMap fun flag => ' ' :: quoteFlag flag) := by
  have hjoin : ∀ (first : Text) (flags : List Text),
      [' '].intercalate (first :: flags.map quoteFlag) =
        first ++ flags.flatMap fun flag => ' ' :: quoteFlag flag := by
    intro first flags
    induction flags generalizing first with
    | nil => simp [List.intercalate]
    | cons flag flags ih =>
      rw [List.map_cons, List.intercalate_cons_cons, ih (quoteFlag flag), List.flatMap_cons]
      simp
  rw [serializeFlags, if_neg hne, hjoin]
  rfl

/-- A blank ends the flag before it. -/
theorem feed_blank {st : Tokens} (hquote : st.currentQuote = none) :
    st.feed ' ' = ⟨none, none, st.all⟩ := by
  have hblock : ¬ (st.currentQuote = none ∧ isQuote ' ' = true ∨ st.currentQuote = some ' ') := by
    rintro (⟨-, h⟩ | h)
    · cases h
    · rw [hquote] at h
      cases h
  rw [Tokens.feed, if_neg hblock, if_pos ⟨hquote, by decide⟩, Tokens.all, hquote]

theorem all_feedAll_quotable {flags : List Text} (h : ∀ flag ∈ flags, Quotable flag) {st : Tokens}
    (hquote : st.currentQuote = none) :
    (st.feedAll (flags.flatMap fun flag => ' ' :: quoteFlag flag)).currentQuote = none ∧
      (st.feedAll (flags.flatMap fun flag => ' ' :: quoteFlag flag)).all = st.all ++ flags := by
  induction flags generalizing st with
  | nil => exact ⟨hquote, (List.append_nil _).symm⟩
  | cons flag flags ih =>
    obtain ⟨hne, hlast⟩ := h flag List.mem_cons_self
    rw [List.flatMap_cons, List.cons_append, feedAll_cons, feed_blank hquote, feedAll_append,
      feedAll_quoteFlag, if_neg hne, if_neg hlast]
    obtain ⟨hquote', hall⟩ := ih (fun f hf => h f (List.mem_cons_of_mem flag hf))
      (show (Tokens.mk none (some flag) st.all).currentQuote = none from rfl)
    refine ⟨hquote', hall.trans ?_⟩
    simp [Tokens.all]

/-! ## Section 6: Flags that are not -/

/-- All that a character can do. -/
theorem feed_cases (st : Tokens) (c : Char) :
    (∃ flag, st.currentFlag = some flag ∧ flag.getLast? = some '\\' ∧
        st.feed c = { st with currentFlag := some (flag.dropLast ++ [c]) }) ∨
      st.feed c = st.toggle c ∨
        st.feed c = { st with currentFlag := none, flags := st.flags ++ st.currentFlag.toList } ∨
          st.feed c = { st with currentFlag := some (st.currentFlag.getD [] ++ [c]) } := by
  unfold Tokens.feed
  split
  · cases hflag : st.currentFlag with
    | none => exact Or.inr (Or.inl rfl)
    | some flag =>
      by_cases hlast : flag.getLast? = some '\\'
      · exact Or.inl ⟨flag, rfl, hlast, if_pos hlast⟩
      · exact Or.inr (Or.inl (if_neg hlast))
  · split
    · exact Or.inr (Or.inr (Or.inl rfl))
    · exact Or.inr (Or.inr (Or.inr rfl))

/-- Behind the tokens `done` stands one that starts with these characters. -/
def StartsWith (done : List Text) (start : Text) (st : Tokens) : Prop :=
  (st.flags = done ∧ ∃ flag, st.currentFlag = some flag ∧ start <+: flag) ∨
    ∃ flag more, st.flags = done ++ flag :: more ∧ start <+: flag

/-- What a flag starts with stays, if it does not end with a backslash. -/
theorem StartsWith.feed {done : List Text} {start : Text} {st : Tokens}
    (h : StartsWith done start st) (hlast : start.getLast? ≠ some '\\') (c : Char) :
    StartsWith done start (st.feed c) := by
  rcases h with ⟨hdone, flag, hflag, hstart⟩ | ⟨flag, more, hmore, hstart⟩
  · rcases feed_cases st c with ⟨flag', hflag', hlast', heq⟩ | heq | heq | heq
    · left
      obtain rfl : flag = flag' := Option.some.inj (hflag.symm.trans hflag')
      obtain ⟨init, rfl⟩ := List.getLast?_eq_some_iff.mp hlast'
      rw [heq]
      refine ⟨hdone, _, rfl, ?_⟩
      rcases List.prefix_concat_iff.mp hstart with rfl | hinit
      · exact absurd hlast' hlast
      · rw [List.dropLast_concat]
        exact hinit.trans (List.prefix_append init [c])
    · left
      rw [heq]
      exact ⟨hdone, flag, hflag, hstart⟩
    · right
      rw [heq]
      refine ⟨flag, [], ?_, hstart⟩
      simp only [hdone, hflag, Option.toList_some]
    · left
      rw [heq]
      refine ⟨hdone, _, rfl, ?_⟩
      rw [hflag]
      exact hstart.trans (List.prefix_append flag [c])
  · right
    rcases feed_cases st c with ⟨flag', -, -, heq⟩ | heq | heq | heq
    · rw [heq]
      exact ⟨flag, more, hmore, hstart⟩
    · rw [heq]
      exact ⟨flag, more, hmore, hstart⟩
    · rw [heq]
      refine ⟨flag, more ++ st.currentFlag.toList, ?_, hstart⟩
      simp only [hmore, List.append_assoc, List.cons_append]
    · rw [heq]
      exact ⟨flag, more, hmore, hstart⟩

/-- Behind the tokens `done` stands no empty one. -/
def NoneEmpty (done : List Text) (st : Tokens) : Prop :=
  st.currentFlag ≠ some [] ∧ ∃ more, st.flags = done ++ more ∧ ∀ flag ∈ more, flag ≠ []

theorem NoneEmpty.feed {done : List Text} {st : Tokens} (h : NoneEmpty done st) (c : Char) :
    NoneEmpty done (st.feed c) := by
  obtain ⟨hcurrent, more, hmore, hne⟩ := h
  rcases feed_cases st c with ⟨flag, -, -, heq⟩ | heq | heq | heq
  · rw [heq]
    exact ⟨by simp, more, hmore, hne⟩
  · rw [heq]
    exact ⟨hcurrent, more, hmore, hne⟩
  · rw [heq]
    refine ⟨by simp, more ++ st.currentFlag.toList, ?_, fun flag hflag => ?_⟩
    · simp only [hmore, List.append_assoc]
    · rcases List.mem_append.mp hflag with hflag | hflag
      · exact hne flag hflag
      · rintro rfl
        exact hcurrent (Option.mem_toList.mp hflag)
  · rw [heq]
    exact ⟨by simp, more, hmore, hne⟩

/-- What every character keeps is kept by a text. -/
theorem feedAll_keeps {P : Tokens → Prop} (h : ∀ st c, P st → P (st.feed c)) (text : Text)
    {st : Tokens} (hst : P st) : P (st.feedAll text) := by
  induction text generalizing st with
  | nil => exact hst
  | cons c text ih => exact ih (h st c hst)

/-! ## Section 7: Round trips -/

/-- The first flag that is not read back as it was is seen in what is read. -/
theorem all_feedAll_not_quotable {flag : Text} (h : ¬ Quotable flag) (rest : Text) {st : Tokens}
    (hquote : st.currentQuote = none) (flags : List Text) :
    (st.feedAll (' ' :: quoteFlag flag ++ rest)).all ≠ st.all ++ flag :: flags := by
  intro hall
  rw [List.cons_append, feedAll_cons, feed_blank hquote, feedAll_append, feedAll_quoteFlag] at hall
  by_cases hnil : flag = []
  · -- nothing is read for an empty flag, and no token is empty
    rw [if_pos hnil] at hall
    have hkeeps : NoneEmpty st.all (Tokens.feedAll ⟨none, none, st.all⟩ rest) :=
      feedAll_keeps (fun _ c hst => hst.feed c) rest
        ⟨by simp, [], (List.append_nil _).symm, fun _ h => absurd h List.not_mem_nil⟩
    obtain ⟨hcurrent, more, hmore, hne⟩ := hkeeps
    rw [Tokens.all, hmore, List.append_assoc] at hall
    have hempty : [] ∈ more ++
        (Tokens.feedAll ⟨none, none, st.all⟩ rest).currentFlag.toList := by
      rw [List.append_cancel_left hall, hnil]
      exact List.mem_cons_self
    rcases List.mem_append.mp hempty with hempty | hempty
    · exact hne [] hempty rfl
    · exact hcurrent (Option.mem_toList.mp hempty)
  · have hlast : flag.getLast? = some '\\' := by
      by_contra hlast
      exact h ⟨hnil, hlast⟩
    rw [if_neg hnil, if_pos hlast] at hall
    have hkeeps : StartsWith st.all (flag.dropLast ++ ['"'])
        (Tokens.feedAll ⟨some '"', some (flag.dropLast ++ ['"']), st.all⟩ rest) :=
      feedAll_keeps (fun _ c hst => hst.feed (by simp) c) rest
        (Or.inl ⟨rfl, _, rfl, List.prefix_rfl⟩)
    obtain ⟨init, rfl⟩ := List.getLast?_eq_some_iff.mp hlast
    rw [List.dropLast_concat] at hkeeps hall
    have hstart : init ++ ['"'] <+: init ++ ['\\'] := by
      rcases hkeeps with ⟨hflags, flag, hflag, hstart⟩ | ⟨flag, more, hflags, hstart⟩
      · rw [Tokens.all, hflags, hflag] at hall
        have hhead := (List.cons.inj (List.append_cancel_left hall)).1
        exact hhead ▸ hstart
      · rw [Tokens.all, hflags, List.append_assoc, List.cons_append] at hall
        have hhead := (List.cons.inj (List.append_cancel_left hall)).1
        exact hhead ▸ hstart
    have hsame := hstart.eq_of_length (by simp)
    cases List.append_cancel_left hsame

/-- The first token is the name of the program. -/
theorem all_drop_name {flags : List Text} (hne : flags ≠ []) :
    ['_'] :: (Tokens.feedAll ⟨none, some ['_'], []⟩
        (flags.flatMap fun flag => ' ' :: quoteFlag flag)).all.drop 1 =
      (Tokens.feedAll ⟨none, some ['_'], []⟩
        (flags.flatMap fun flag => ' ' :: quoteFlag flag)).all := by
  obtain ⟨flag, flags, rfl⟩ := List.exists_cons_of_ne_nil hne
  rw [List.flatMap_cons, List.cons_append, feedAll_cons, feed_blank rfl]
  have hkeeps : [['_']] <+: (Tokens.feedAll ⟨none, none, [['_']]⟩
      (quoteFlag flag ++ flags.flatMap fun flag => ' ' :: quoteFlag flag)).flags := by
    apply feedAll_keeps (P := fun st => [['_']] <+: st.flags) _ _ List.prefix_rfl
    intro st c hst
    rcases feed_cases st c with ⟨_, -, -, heq⟩ | heq | heq | heq
    · exact heq ▸ hst
    · exact heq ▸ hst
    · exact heq ▸ hst.trans (List.prefix_append _ _)
    · exact heq ▸ hst
  obtain ⟨more, hmore⟩ := hkeeps
  change ['_'] :: (Tokens.feedAll ⟨none, none, [['_']]⟩ _).all.drop 1 =
    (Tokens.feedAll ⟨none, none, [['_']]⟩ _).all
  rw [Tokens.all, ← hmore]
  rfl

/-- Flags are read back as they were if and only if none is empty and none ends with a
backslash. -/
theorem parseFlags_serializeFlags_iff {flags : List Text} {line : Text}
    (h : serializeFlags flags = some line) :
    parseFlags line = flags ↔ ∀ flag ∈ flags, Quotable flag := by
  have hne : flags ≠ [] := by
    rintro rfl
    cases h
  rw [serializeFlags_eq hne] at h
  obtain rfl := Option.some.inj h
  have hname : Tokens.feedAll ⟨none, none, []⟩
      ('_' :: flags.flatMap fun flag => ' ' :: quoteFlag flag) =
        Tokens.feedAll ⟨none, some ['_'], []⟩ (flags.flatMap fun flag => ' ' :: quoteFlag flag) :=
    rfl
  rw [parseFlags, hname]
  constructor
  · intro hread
    by_contra hbad
    obtain ⟨flag, hflag, hnot⟩ : ∃ flag ∈ flags, ¬ Quotable flag := by simpa using hbad
    have hfound : (flags.find? fun flag => decide (¬ Quotable flag)).isSome :=
      List.find?_isSome.mpr ⟨flag, hflag, decide_eq_true hnot⟩
    obtain ⟨first, hfirst⟩ := Option.isSome_iff_exists.mp hfound
    obtain ⟨hnot', good, rest, rfl, hgood⟩ := List.find?_eq_some_iff_append.mp hfirst
    have hall : (Tokens.feedAll ⟨none, some ['_'], []⟩
        ((good ++ first :: rest).flatMap fun flag => ' ' :: quoteFlag flag)).all =
          ['_'] :: (good ++ first :: rest) := by
      rw [← all_drop_name hne, hread]
    obtain ⟨hquote, htokens⟩ := all_feedAll_quotable (fun f hf => by simpa using hgood f hf)
      (show (Tokens.mk none (some ['_']) []).currentQuote = none from rfl)
    rw [List.flatMap_append, feedAll_append, List.flatMap_cons] at hall
    apply all_feedAll_not_quotable (of_decide_eq_true hnot') _ hquote rest
    rw [htokens]
    exact hall
  · intro hquotable
    rw [(all_feedAll_quotable hquotable rfl).2]
    rfl

theorem parseFlags_serializeFlags_search :
    parseFlags "_ --search=\"a \\\"b\\\"\" --single-process".toList =
      ["--search=a \"b\"".toList, "--single-process".toList] :=
  (parseFlags_serializeFlags_iff
    (show serializeFlags ["--search=a \"b\"".toList, "--single-process".toList] = some _ from rfl)).mpr
    (by decide)

end Udroid.Devil
