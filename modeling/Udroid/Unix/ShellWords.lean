import Mathlib.Data.List.Forall2
import Udroid.Unix.Text

/-!
# The words of a shell line

How a POSIX shell cuts a line into words and operators, for lines whose only special characters
are blanks, quotes, `&&`, `;`, parentheses, `>` and parameters.  Everything else that a shell
gives a meaning to is refused.

- `feed`: the lexer, one character after the other.
- `Adds`: a piece of text that adds characters to the word it stands in.
- `Line`: a piece of text that makes whole tokens, and how such pieces are put together.
-/

namespace Udroid.Unix.Shell

/-! ## Section 1: The lexer -/

/-- A part of a word. -/
inductive Seg where
  /-- A character outside quotes. -/
  | plain (c : Char)
  /-- A character inside quotes. -/
  | quoted (c : Char)
  /-- `$name` inside double quotes. -/
  | param (name : Text)
  /-- `$?`. -/
  | status
deriving DecidableEq

abbrev Word := List Seg

inductive Tok where
  | word (w : Word)
  | andIf
  | semi
  | left
  | right
  | into
deriving DecidableEq

/-- Where in a word the lexer is. -/
inductive Mode where
  | plain
  /-- Inside single quotes. -/
  | single
  /-- Inside double quotes. -/
  | double
  /-- Behind a backslash inside double quotes. -/
  | escape
  /-- Behind a dollar sign inside double quotes, with the name so far. -/
  | name (sofar : Text)
  /-- Behind a dollar sign outside quotes. -/
  | dollar
  /-- Behind the first character of `&&`. -/
  | amp
deriving DecidableEq

structure Lexer where
  mode : Mode
  /-- The word that is being read. -/
  word : Option Word
  toks : List Tok
deriving DecidableEq

/-- Characters that mean nothing to the shell outside quotes. -/
def isSafe (c : Char) : Bool :=
  c.isAlphanum || "@%_-+=:,./".toList.contains c

/-- What a name starts with, and what it goes on with. -/
def isNameStart (c : Char) : Bool := c.isAlpha || c == '_'

def isNameChar (c : Char) : Bool := isNameStart c || c.isDigit

namespace Lexer

/-- More of the word, in another mode. -/
def add (s : Lexer) (mode : Mode) (segs : Word) : Lexer :=
  { s with mode := mode, word := some (s.word.getD [] ++ segs) }

/-- The end of the word, if there is one. -/
def flush (s : Lexer) : Lexer :=
  match s.word with
  | none => s
  | some w => { s with word := none, toks := s.toks ++ [.word w] }

/-- An operator, which also ends a word. -/
def emit (s : Lexer) (t : Tok) : Lexer :=
  { mode := .plain, word := none, toks := s.flush.toks ++ [t] }

/-- A character outside quotes. -/
def stepPlain (s : Lexer) (c : Char) : Option Lexer :=
  if c = ' ' ∨ c = '\t' then some s.flush
  else if c = '\'' then some (s.add .single [])
  else if c = '"' then some (s.add .double [])
  else if c = ';' then some (s.emit .semi)
  else if c = ')' then some (s.emit .right)
  -- inside a word these would mean something else
  else if c = '(' then if s.word.isNone then some (s.emit .left) else none
  else if c = '>' then if s.word.isNone then some (s.emit .into) else none
  else if c = '&' then some { s.flush with mode := .amp }
  else if c = '$' then some { s with mode := .dollar }
  else if isSafe c then some (s.add .plain [.plain c])
  else none

/-- A character inside double quotes. -/
def stepDouble (s : Lexer) (c : Char) : Option Lexer :=
  if c = '"' then some { s with mode := .plain }
  else if c = '$' then some { s with mode := .name [] }
  else if c = '\\' then some { s with mode := .escape }
  else if c = '`' then none
  else some (s.add .double [.quoted c])

/-- One character of the line; `none` for what this fragment does not have. -/
def step (s : Lexer) (c : Char) : Option Lexer :=
  match s.mode with
  | .plain => s.stepPlain c
  | .single => if c = '\'' then some { s with mode := .plain } else some (s.add .single [.quoted c])
  | .double => s.stepDouble c
  | .escape =>
      if c = '"' ∨ c = '\\' ∨ c = '$' ∨ c = '`' then some (s.add .double [.quoted c])
      else if c = '\n' then some { s with mode := .double }
      else some (s.add .double [.quoted '\\', .quoted c])
  | .name sofar =>
      if isNameStart c || (isNameChar c && !sofar.isEmpty) then
        some { s with mode := .name (sofar ++ [c]) }
      else if sofar.isEmpty then none
      else (s.add .double [.param sofar]).stepDouble c
  | .dollar => if c = '?' then some (s.add .plain [.status]) else none
  | .amp => if c = '&' then some (s.emit .andIf) else none

end Lexer

/-- A piece of a line. -/
def feed (s : Lexer) (text : Text) : Option Lexer := text.foldlM Lexer.step s

/-- The tokens of a line. -/
def lex (text : Text) : Option (List Tok) :=
  (feed ⟨.plain, none, []⟩ text).bind fun s => if s.mode = .plain then some s.flush.toks else none

theorem feed_nil (s : Lexer) : feed s [] = some s := rfl

theorem feed_cons (s : Lexer) (c : Char) (text : Text) :
    feed s (c :: text) = (s.step c).bind (feed · text) := by
  rw [feed, List.foldlM_cons]
  rfl

theorem feed_append (s : Lexer) (a b : Text) : feed s (a ++ b) = (feed s a).bind (feed · b) := by
  rw [feed, List.foldlM_append]
  rfl

/-! ## Section 2: Pieces of a word -/

/-- A piece of text adds these parts to the word it stands in, or starts a word with them. -/
def Adds (text : Text) (segs : Word) : Prop :=
  ∀ w toks, feed ⟨.plain, w, toks⟩ text = some ⟨.plain, some (w.getD [] ++ segs), toks⟩

theorem Adds.append {a b : Text} {segs segs' : Word} (ha : Adds a segs) (hb : Adds b segs') :
    Adds (a ++ b) (segs ++ segs') := by
  intro w toks
  rw [feed_append, ha w toks, Option.bind_some, hb, Option.getD_some, List.append_assoc]

theorem isSafe_ne {c d : Char} (h : isSafe c = true) (hd : isSafe d = false) : c ≠ d := by
  rintro rfl
  rw [h] at hd
  cases hd

theorem step_safe {c : Char} (h : isSafe c = true) (w : Option Word) (toks : List Tok) :
    Lexer.step ⟨.plain, w, toks⟩ c = some ⟨.plain, some (w.getD [] ++ [.plain c]), toks⟩ := by
  have hne : ∀ d ∈ [' ', '\t', '\'', '"', ';', ')', '(', '>', '&', '$'], c ≠ d := by
    intro d hd
    have hall : ∀ d ∈ [' ', '\t', '\'', '"', ';', ')', '(', '>', '&', '$'], isSafe d = false := by
      decide
    exact isSafe_ne h (hall d hd)
  simp only [List.forall_mem_cons] at hne
  obtain ⟨h₁, h₂, h₃, h₄, h₅, h₆, h₇, h₈, h₉, h₁₀, -⟩ := hne
  simp only [Lexer.step, Lexer.stepPlain, h₁, h₂, h₃, h₄, h₅, h₆, h₇, h₈, h₉, h₁₀, or_self,
    if_false, h, if_true, Lexer.add]

/-- Safe characters stand for themselves. -/
theorem adds_safe {text : Text} (hne : text ≠ []) (h : ∀ c ∈ text, isSafe c = true) :
    Adds text (text.map .plain) := by
  induction text with
  | nil => exact absurd rfl hne
  | cons c rest ih =>
    have hfirst : Adds [c] [.plain c] := by
      intro w toks
      rw [feed_cons, step_safe (h c List.mem_cons_self)]
      rfl
    cases rest with
    | nil => exact hfirst
    | cons d rest =>
      exact hfirst.append (ih (List.cons_ne_nil d rest) fun e he => h e (List.mem_cons_of_mem c he))

/-- A text between single quotes, its own single quotes put between double quotes. -/
def escapeSingle (text : Text) : Text :=
  text.flatMap fun c => if c = '\'' then "'\"'\"'".toList else [c]

theorem feed_single (text : Text) (w : Word) (toks : List Tok) :
    feed ⟨.single, some w, toks⟩ (escapeSingle text) =
      some ⟨.single, some (w ++ text.map .quoted), toks⟩ := by
  induction text generalizing w with
  | nil => simp [escapeSingle, feed_nil]
  | cons c rest ih =>
    have hone : feed ⟨.single, some w, toks⟩ (if c = '\'' then "'\"'\"'".toList else [c]) =
        some ⟨.single, some (w ++ [.quoted c]), toks⟩ := by
      by_cases hquote : c = '\''
      · subst hquote
        have hfeed : feed ⟨.single, some w, toks⟩ "'\"'\"'".toList =
            some ⟨.single, some (w ++ [] ++ [.quoted '\''] ++ []), toks⟩ := rfl
        rw [if_pos rfl, hfeed, List.append_nil, List.append_nil]
      · rw [if_neg hquote, feed_cons]
        simp only [Lexer.step, hquote, if_false, Lexer.add]
        rfl
    rw [escapeSingle, List.flatMap_cons, feed_append, hone, Option.bind_some, ← escapeSingle, ih]
    simp

/-- Single quotes around any text. -/
theorem adds_single (text : Text) :
    Adds ('\'' :: escapeSingle text ++ ['\'']) (text.map .quoted) := by
  intro w toks
  have hopen : Lexer.step ⟨.plain, w, toks⟩ '\'' = some ⟨.single, some (w.getD [] ++ []), toks⟩ := by
    rfl
  rw [feed_append, feed_cons, hopen, Option.bind_some, feed_single, Option.bind_some,
    List.append_nil]
  rfl

/-- What double quotes take as it is. -/
def isLiteral (c : Char) : Bool := c != '$' && c != '`' && c != '\\'

/-- A text between double quotes, its own double quotes escaped. -/
def escapeDouble (text : Text) : Text :=
  text.flatMap fun c => if c = '"' then ['\\', '"'] else [c]

theorem feed_double {text : Text} (h : ∀ c ∈ text, isLiteral c = true) (w : Word)
    (toks : List Tok) : feed ⟨.double, some w, toks⟩ (escapeDouble text) =
      some ⟨.double, some (w ++ text.map .quoted), toks⟩ := by
  induction text generalizing w with
  | nil => simp [escapeDouble, feed_nil]
  | cons c rest ih =>
    have hrest := ih (fun d hd => h d (List.mem_cons_of_mem c hd)) (w ++ [.quoted c])
    have hlit := h c List.mem_cons_self
    simp only [isLiteral, Bool.and_eq_true, bne_iff_ne] at hlit
    obtain ⟨⟨hdollar, htick⟩, hslash⟩ := hlit
    have hone : feed ⟨.double, some w, toks⟩ (if c = '"' then ['\\', '"'] else [c]) =
        some ⟨.double, some (w ++ [.quoted c]), toks⟩ := by
      by_cases hquote : c = '"'
      · subst hquote
        rfl
      · rw [if_neg hquote, feed_cons]
        simp only [Lexer.step, Lexer.stepDouble, hquote, hdollar, htick, hslash, if_false, Lexer.add]
        rfl
    rw [escapeDouble, List.flatMap_cons, feed_append, hone, Option.bind_some, ← escapeDouble, hrest]
    simp

/-- Double quotes around what is nothing but characters. -/
theorem adds_double {text : Text} (h : ∀ c ∈ text, isLiteral c = true) :
    Adds ('"' :: escapeDouble text ++ ['"']) (text.map .quoted) := by
  intro w toks
  have hopen : Lexer.step ⟨.plain, w, toks⟩ '"' = some ⟨.double, some (w.getD [] ++ []), toks⟩ := by
    rfl
  rw [feed_append, feed_cons, hopen, Option.bind_some, feed_double h, Option.bind_some,
    List.append_nil]
  rfl

/-- A name of a parameter. -/
def isName : Text → Bool
  | [] => false
  | c :: rest => isNameStart c && rest.all isNameChar

theorem feed_name {name : Text} (hname : name.all isNameChar = true) (sofar : Text)
    (hne : sofar ≠ []) (w : Option Word) (toks : List Tok) :
    feed ⟨.name sofar, w, toks⟩ name = some ⟨.name (sofar ++ name), w, toks⟩ := by
  induction name generalizing sofar with
  | nil => simp [feed_nil]
  | cons c rest ih =>
    rw [List.all_cons, Bool.and_eq_true] at hname
    have hempty : sofar.isEmpty = false := by simpa using hne
    rw [feed_cons]
    simp only [Lexer.step, hname.1, hempty, Bool.not_false, Bool.and_self, Bool.or_true, if_true,
      Option.bind_some, ih hname.2 (sofar ++ [c]) (by simp)]
    simp

/-- A parameter between double quotes. -/
theorem adds_param {name : Text} (h : isName name = true) :
    Adds (['"', '$'] ++ name ++ ['"']) [.param name] := by
  cases name with
  | nil => cases h
  | cons c rest =>
    intro w toks
    obtain ⟨hstart, hrest⟩ := Bool.and_eq_true_iff.mp h
    have hopen : feed ⟨.plain, w, toks⟩ ['"', '$'] = some ⟨.name [], some (w.getD [] ++ []), toks⟩ := by
      rfl
    have hfirst : Lexer.step ⟨.name [], some (w.getD [] ++ []), toks⟩ c =
        some ⟨.name [c], some (w.getD [] ++ []), toks⟩ := by
      simp [Lexer.step, hstart]
    rw [feed_append, feed_append, hopen, Option.bind_some, feed_cons, hfirst, Option.bind_some,
      feed_name hrest [c] (List.cons_ne_nil c []), Option.bind_some, List.append_nil]
    rfl

theorem adds_status : Adds ['$', '?'] [.status] := fun _ _ => rfl

/-! ## Section 3: Lines -/

/-- A piece of text makes these tokens, from one operator or blank to the next. -/
def Line (text : Text) (ts : List Tok) : Prop :=
  ∀ toks, ∃ s, feed ⟨.plain, none, toks⟩ text = some s ∧ s.mode = .plain ∧
    s.flush = ⟨.plain, none, toks ++ ts⟩

theorem flush_flush (s : Lexer) : s.flush.flush = s.flush := by
  cases hw : s.word with
  | none => simp [Lexer.flush, hw]
  | some w => simp [Lexer.flush, hw]

/-- The characters that end a word. -/
def wordEnds : List Char := [' ', ';', ')', '&']

/-- They do the same whether the word before them was ended or not. -/
theorem step_flush {s : Lexer} (hmode : s.mode = .plain) {c : Char} (hc : c ∈ wordEnds) :
    s.step c = s.flush.step c := by
  have hmode' : s.flush.mode = .plain := by
    rw [← hmode, Lexer.flush]
    cases s.word <;> rfl
  rw [Lexer.step, Lexer.step, hmode, hmode']
  simp only [wordEnds, List.mem_cons, List.not_mem_nil, or_false] at hc
  rcases hc with rfl | rfl | rfl | rfl <;>
    simp [Lexer.stepPlain, Lexer.emit, flush_flush]

theorem line_nil : Line [] [] := fun toks => ⟨_, rfl, rfl, by simp [Lexer.flush]⟩

/-- A piece that starts with the end of a word goes behind any other. -/
theorem Line.append {a b : Text} {c : Char} {ta tb : List Tok} (hc : c ∈ wordEnds)
    (ha : Line a ta) (hb : Line (c :: b) tb) : Line (a ++ c :: b) (ta ++ tb) := by
  intro toks
  obtain ⟨s, hfeed, hmode, hflush⟩ := ha toks
  obtain ⟨s', hfeed', hmode', hflush'⟩ := hb (toks ++ ta)
  refine ⟨s', ?_, hmode', by rw [hflush', List.append_assoc]⟩
  rw [feed_append, hfeed, Option.bind_some, feed_cons, step_flush hmode hc, hflush, ← feed_cons,
    hfeed']

/-- What one step from the end of a word does, put before a piece. -/
theorem Line.cons {c : Char} {u ts : List Tok} {b : Text}
    (hstep : ∀ toks, Lexer.step ⟨.plain, none, toks⟩ c = some ⟨.plain, none, toks ++ u⟩)
    (h : Line b ts) : Line (c :: b) (u ++ ts) := by
  intro toks
  obtain ⟨s, hfeed, hmode, hflush⟩ := h (toks ++ u)
  exact ⟨s, by rw [feed_cons, hstep, Option.bind_some, hfeed], hmode,
    by rw [hflush, List.append_assoc]⟩

theorem Line.blank {b : Text} {ts : List Tok} (h : Line b ts) : Line (' ' :: b) ts :=
  Line.cons (u := []) (fun toks => by simp [Lexer.step, Lexer.stepPlain, Lexer.flush]) h

theorem Line.semi {b : Text} {ts : List Tok} (h : Line b ts) : Line (';' :: b) (.semi :: ts) :=
  Line.cons (u := [.semi]) (fun _ => rfl) h

theorem Line.right {b : Text} {ts : List Tok} (h : Line b ts) : Line (')' :: b) (.right :: ts) :=
  Line.cons (u := [.right]) (fun _ => rfl) h

theorem Line.left {b : Text} {ts : List Tok} (h : Line b ts) : Line ('(' :: b) (.left :: ts) :=
  Line.cons (u := [.left]) (fun _ => rfl) h

theorem Line.into {b : Text} {ts : List Tok} (h : Line b ts) : Line ('>' :: b) (.into :: ts) :=
  Line.cons (u := [.into]) (fun _ => rfl) h

theorem Line.andIf {b : Text} {ts : List Tok} (h : Line b ts) :
    Line ('&' :: '&' :: b) (.andIf :: ts) := by
  intro toks
  obtain ⟨s, hfeed, hmode, hflush⟩ := h (toks ++ [.andIf])
  refine ⟨s, ?_, hmode, by rw [hflush, List.append_assoc, List.singleton_append]⟩
  exact hfeed

theorem Adds.line {text : Text} {w : Word} (h : Adds text w) : Line text [.word w] :=
  fun toks => ⟨_, h none toks, rfl, by simp [Lexer.flush]⟩

/-- Words with a blank before each but the first. -/
theorem line_words {texts : List Text} {ws : List Word} (h : List.Forall₂ Adds texts ws) :
    Line ([' '].intercalate texts) (ws.map .word) := by
  induction h with
  | nil => exact line_nil
  | cons hfirst hrest ih =>
    rename_i text w texts ws
    cases hrest with
    | nil => simpa using hfirst.line
    | cons hsecond hrest =>
      rw [List.intercalate_cons_of_ne_nil (List.cons_ne_nil _ _), List.append_assoc,
        List.singleton_append, List.map_cons]
      exact Line.append (by decide) hfirst.line ih.blank

theorem Line.lex {text : Text} {ts : List Tok} (h : Line text ts) : lex text = some ts := by
  obtain ⟨s, hfeed, hmode, hflush⟩ := h []
  rw [Shell.lex, hfeed, Option.bind_some, if_pos hmode, hflush, List.nil_append]

end Udroid.Unix.Shell
