import Udroid.Import.Script

/-!
# Imports that keep

Every wrapper is to find its program in `bin` and its libraries in `lib`.

- `lib_foldl_cpLib`: what the loop leaves under a library's name.
- `Kept.concat`: one more import keeps what is kept and adds its own program.
- `imports_kept`: a sequence of imports keeps all of its programs.
-/

namespace Udroid.Import

open Udroid.Unix

/-! ## Section 1: What is to be kept -/

/-- `genexe` writes a wrapper for the command. -/
def Wrapped (c : Word) : Prop :=
  basename c.text ∉ directoryNames

/-- `bin` holds the ELF file that the command resolves to, and `lib` holds every library of
the loader's listing under the name that the loader will look for. -/
def World.Imported (w : World) (d : Dir) (c : Word) : Prop :=
  ∃ path content, w.which c = some path ∧ w.content path.text = some content ∧
    isElf content = true ∧ d.bin (basename c.text) = some content ∧
      ∀ line ∈ w.list path, ∀ need ∈ line.need,
        ∃ library, w.content need.2.text = some library ∧ d.lib need.1 = some library

/-- All wrappers of a sequence of imports have what they run. -/
def World.Kept (w : World) (commands : List Word) : Prop :=
  ∀ c ∈ commands, Wrapped c → w.Imported (w.run commands) c

/-- The script takes the command for a program and copies it. -/
def World.Passes (w : World) (c : Word) (path : AbsPath) : Prop :=
  w.which c = some path ∧ w.mentionsElf path = true

/-- An import that goes well in the directory `d`, after the imports `before`. -/
structure World.Sound (w : World) (d : Dir) (before : List Word) (c : Word) : Prop where
  /-- No name is a file name pattern. -/
  usual : w.usual c = true
  /-- A command that gets a wrapper is an ELF file on the path, not a link to one. -/
  program : Wrapped c → ∃ path content, w.which c = some path ∧
    isLink w.tree w.limit path.text = false ∧ w.content path.text = some content ∧
      isElf content = true
  /-- The script gets every path of the listing. -/
  legible : ∀ path, w.Passes c path → ∀ line ∈ w.list path, line.Legible
  /-- Every library is a file that is copied to the name the loader looks for. -/
  complete : Wrapped c → ∀ path, w.Passes c path → ∀ line ∈ w.list path, ∀ need ∈ line.need,
    basename need.2.text = need.1 ∧ ∃ library, w.content need.2.text = some library
  /-- A program of the same name is the same file. -/
  bin_agrees : ∀ path, w.Passes c path → ∀ c' ∈ before, Wrapped c' →
    basename c'.text = basename c.text → ∀ path', w.which c' = some path' →
      ∀ content, w.content path.text = some content → w.content path'.text = some content
  /-- What is copied under the name of a library that a wrapper needs is this library. -/
  lib_agrees : ∀ path, w.Passes c path → ∀ line ∈ w.list path,
    ∀ c' ∈ before ++ [c], Wrapped c' → ∀ path', w.which c' = some path' →
      ∀ line' ∈ w.list path', ∀ need ∈ line'.need, basename line.word = need.1 →
        ∀ library, w.source d line.word = some library → w.content need.2.text = some library

variable {w : World} {d : Dir} {c : Word}

/-! ## Section 2: Copying -/

theorem put_self (name content : Text) (files : Text → Option Text) :
    put name content files name = some content := by
  simp [put]

theorem put_of_ne {n name : Text} (h : n ≠ name) (content : Text)
    (files : Text → Option Text) : put name content files n = files n := by
  simp [put, h]

@[simp] theorem wrappers_cpLib (word : Text) : (w.cpLib d word).wrappers = d.wrappers := by
  unfold World.cpLib
  split <;> rfl

@[simp] theorem bin_cpLib (word : Text) : (w.cpLib d word).bin = d.bin := by
  unfold World.cpLib
  split <;> rfl

/-- What is copied does not depend on what was copied before. -/
theorem source_cpLib (word word' : Text) :
    w.source (w.cpLib d word) word' = w.source d word' := by
  simp only [World.source, wrappers_cpLib]

theorem bin_foldl_cpLib (ws : List Text) : (ws.foldl w.cpLib d).bin = d.bin := by
  induction ws generalizing d with
  | nil => rfl
  | cons word ws ih => rw [List.foldl_cons, ih, bin_cpLib]

theorem lib_cpLib_of_source {word content : Text} (h : w.source d word = some content) :
    (w.cpLib d word).lib = put (basename word) content d.lib := by
  simp [World.cpLib, h]

theorem lib_cpLib_of_none {word : Text} (h : w.source d word = none) :
    (w.cpLib d word).lib = d.lib := by
  simp [World.cpLib, h]

/-- Where all words that copy to a name copy the same library, and the library is there or is
copied, the loop leaves it there. -/
theorem lib_foldl_cpLib {ws : List Text} {name library : Text}
    (hsame : ∀ word ∈ ws, basename word = name → ∀ content, w.source d word = some content →
      content = library)
    (hthere : d.lib name = some library ∨
      ∃ word ∈ ws, basename word = name ∧ w.source d word = some library) :
    (ws.foldl w.cpLib d).lib name = some library := by
  induction ws generalizing d with
  | nil => simpa using hthere
  | cons word ws ih =>
    rw [List.foldl_cons]
    apply ih
    · intro word' hword' hname content hcontent
      rw [source_cpLib] at hcontent
      exact hsame word' (by simp [hword']) hname content hcontent
    · -- the word copies the library, or copies to another name, or copies nothing
      by_cases hname : basename word = name
      · cases hsource : w.source d word with
        | some content =>
          have hlibrary := hsame word (by simp) hname content hsource
          rw [lib_cpLib_of_source hsource, hname, hlibrary]
          exact Or.inl (put_self _ _ _)
        | none =>
          rw [lib_cpLib_of_none hsource]
          rcases hthere with hlib | ⟨word', hword', hname', hsource'⟩
          · exact Or.inl hlib
          · rcases List.mem_cons.mp hword' with rfl | hword'
            · rw [hsource] at hsource'
              cases hsource'
            · exact Or.inr ⟨word', hword', hname', by rw [source_cpLib]; exact hsource'⟩
      · -- another name is written
        have hlib : (w.cpLib d word).lib name = d.lib name := by
          cases hsource : w.source d word with
          | some content =>
            rw [lib_cpLib_of_source hsource, put_of_ne (Ne.symm hname)]
          | none => rw [lib_cpLib_of_none hsource]
        rw [hlib]
        rcases hthere with hlib | ⟨word', hword', hname', hsource'⟩
        · exact Or.inl hlib
        · rcases List.mem_cons.mp hword' with rfl | hword'
          · exact absurd hname' hname
          · exact Or.inr ⟨word', hword', hname', by rw [source_cpLib]; exact hsource'⟩

/-! ## Section 3: One import -/

theorem bin_genexe (c : Word) (d : Dir) : (genexe c d).bin = d.bin := by
  unfold genexe
  split <;> rfl

theorem lib_genexe (c : Word) (d : Dir) : (genexe c d).lib = d.lib := by
  unfold genexe
  split <;> rfl

/-- An import copies what `dcp` copies. -/
theorem importFromUdroid_files (h : w.usual c = true) :
    (w.importFromUdroid d c).bin = (w.dcp c d).bin ∧
      (w.importFromUdroid d c).lib = (w.dcp c d).lib := by
  rw [World.importFromUdroid, if_pos h]
  exact ⟨bin_genexe _ _, lib_genexe _ _⟩

theorem dcp_of_not_passes (h : ∀ path, ¬ w.Passes c path) : w.dcp c d = d := by
  unfold World.dcp
  split
  · rfl
  · rename_i path hwhich
    rw [if_neg fun helf => h path ⟨hwhich, helf⟩]

/-- The program is copied to its own name. -/
theorem bin_dcp {path : AbsPath} (h : w.Passes c path) :
    (w.dcp c d).bin =
      match w.content path.text with
      | some content => put (basename c.text) content d.bin
      | none => d.bin := by
  have hname := w.which_basename c path h.1
  simp only [World.dcp, h.1, h.2, if_true, bin_foldl_cpLib, hname]
  cases w.content path.text <;> rfl

/-- The words of the listing are copied. -/
theorem lib_dcp {path : AbsPath} (h : w.Passes c path)
    (hlegible : ∀ line ∈ w.list path, line.Legible) {name library : Text}
    (hsame : ∀ line ∈ w.list path, basename line.word = name →
      ∀ content, w.source d line.word = some content → content = library)
    (hthere : d.lib name = some library ∨
      ∃ line ∈ w.list path, basename line.word = name ∧ w.source d line.word = some library) :
    (w.dcp c d).lib name = some library := by
  simp only [World.dcp, h.1, h.2, if_true, libs_render hlegible]
  cases w.content path.text with
  | none =>
    apply lib_foldl_cpLib
    · simpa using hsame
    · simpa using hthere
  | some content =>
    apply lib_foldl_cpLib
    · simpa [World.source] using hsame
    · simpa [World.source] using hthere

/-- The word of a library's line is the library's path. -/
theorem word_of_need {line : Line} {need : Text × AbsPath} (h : need ∈ line.need) :
    line.word = need.2.text := by
  cases line with
  | found name path address => cases h; rfl
  | bare path address => cases h; rfl
  | pathless name address => cases h
  | notFound name => cases h

/-- A path from the root is copied from there. -/
theorem source_absPath (w : World) (d : Dir) (path : AbsPath) :
    w.source d path.text = w.content path.text := by
  simp [World.source, path.absolute]

/-! ## Section 4: A sequence of imports -/

theorem run_concat (w : World) (before : List Word) (c : Word) :
    w.run (before ++ [c]) = w.importFromUdroid (w.run before) c := by
  simp [World.run]

/-- A sound import leaves the programs before it as they are. -/
theorem imported_of_before {before : List Word} (hsound : w.Sound d before c) {c' : Word}
    (hc' : c' ∈ before) (hwrapped : Wrapped c') (h : w.Imported d c') :
    w.Imported (w.importFromUdroid d c) c' := by
  obtain ⟨hbinEq, hlibEq⟩ := importFromUdroid_files (d := d) hsound.usual
  obtain ⟨path', content', hwhich', hcontent', helf', hbin, hlib⟩ := h
  refine ⟨path', content', hwhich', hcontent', helf', ?_, ?_⟩
  · rw [hbinEq]
    -- an import that does not pass the test copies nothing
    by_cases hpasses : ∃ path, w.Passes c path
    · obtain ⟨path, hpasses⟩ := hpasses
      rw [bin_dcp hpasses]
      cases hcontent : w.content path.text with
      | none => exact hbin
      | some content =>
        -- a program of the same name is written over, with the same content
        by_cases hname : basename c'.text = basename c.text
        · have hsame := hsound.bin_agrees path hpasses c' hc' hwrapped hname path' hwhich' content
            hcontent
          rw [hcontent'] at hsame
          show put (basename c.text) content d.bin (basename c'.text) = some content'
          rw [hname, put_self, hsame]
        · show put (basename c.text) content d.bin (basename c'.text) = some content'
          rw [put_of_ne hname, hbin]
    · push Not at hpasses
      rw [dcp_of_not_passes hpasses, hbin]
  · intro line hline need hneed
    -- a library of an earlier program is still in `lib`
    obtain ⟨library, hlibrary, hthere⟩ := hlib line hline need hneed
    refine ⟨library, hlibrary, ?_⟩
    rw [hlibEq]
    by_cases hpasses : ∃ path, w.Passes c path
    · obtain ⟨path, hpasses⟩ := hpasses
      apply lib_dcp hpasses (hsound.legible path hpasses)
      -- whatever goes over the library has its content, and it was there before
      · intro other hother hname content hsource
        have hsame := hsound.lib_agrees path hpasses other hother c' (List.mem_append_left _ hc')
          hwrapped path' hwhich' line hline need hneed hname content hsource
        exact Option.some.inj (hsame.symm.trans hlibrary)
      · exact Or.inl hthere
    · push Not at hpasses
      rw [dcp_of_not_passes hpasses, hthere]

/-- A sound import imports its own program. -/
theorem imported_self {before : List Word} (hsound : w.Sound d before c) (hwrapped : Wrapped c) :
    w.Imported (w.importFromUdroid d c) c := by
  obtain ⟨hbinEq, hlibEq⟩ := importFromUdroid_files (d := d) hsound.usual
  obtain ⟨path, content, hwhich, hlink, hcontent, helf⟩ := hsound.program hwrapped
  have hpasses : w.Passes c path := ⟨hwhich, w.elf_mentioned path content hlink hcontent helf⟩
  refine ⟨path, content, hwhich, hcontent, helf, ?_, ?_⟩
  · rw [hbinEq, bin_dcp hpasses, hcontent]
    exact put_self _ _ _
  · intro line hline need hneed
    obtain ⟨hname, library, hlibrary⟩ := hsound.complete hwrapped path hpasses line hline need hneed
    refine ⟨library, hlibrary, ?_⟩
    rw [hlibEq]
    have hword := word_of_need hneed
    apply lib_dcp hpasses (hsound.legible path hpasses)
    -- several lines may copy to this name, all with one content; the line itself is one of them
    · intro other hother hother_name content' hsource
      have hsame := hsound.lib_agrees path hpasses other hother c (by simp) hwrapped path hwhich
        line hline need hneed hother_name content' hsource
      exact Option.some.inj (hsame.symm.trans hlibrary)
    · refine Or.inr ⟨line, hline, ?_, ?_⟩
      · rw [hword, hname]
      · rw [hword, source_absPath, hlibrary]

/-- One more sound import keeps what is kept and adds its own program. -/
theorem Kept.concat {before : List Word} (h : w.Kept before)
    (hsound : w.Sound (w.run before) before c) : w.Kept (before ++ [c]) := by
  intro c' hc' hwrapped
  rw [run_concat]
  rcases List.mem_append.mp hc' with hbefore | hlast
  · exact imported_of_before hsound hbefore hwrapped (h c' hbefore hwrapped)
  · obtain rfl := List.mem_singleton.mp hlast
    exact imported_self hsound hwrapped

/-- A device on which `which` finds one command, and `file` looks at the content of what is
no link. -/
def device (tree : FileTree Text) (command : Word) (path : AbsPath)
    (hname : basename path.text = basename command.text) (listing : List Line) : World where
  tree := tree
  limit := 40
  which c := if c.text = command.text then some path else none
  mentionsElf p := !isLink tree 40 p.text && ((contentOf tree 40 p.text).any isElf)
  list _ := listing
  globbed _ d := d
  which_basename c p h := by
    by_cases hc : c.text = command.text
    · rw [if_pos hc, Option.some_inj] at h
      rw [← h, hc, hname]
    · rw [if_neg hc] at h
      cases h
  link_not_elf p h := by simp [h]
  elf_mentioned p content hlink hcontent helf := by simp [hlink, hcontent, helf]

/-- The mark of an ELF file, with a name to tell contents apart. -/
def elfFile (name : String) : Text :=
  '\x7f' :: ("ELF" ++ name).toList

/-- A device with `ls` and with `vi`, which is a link. -/
def deviceTree : FileTree Text :=
  .ofTable
    [(["bin"], .dir), (["bin", "ls"], .file (elfFile "ls")),
     (["bin", "vi"], .link ⟨true, ["bin", "vim"]⟩), (["bin", "vim"], .file (elfFile "vim")),
     (["lib"], .dir), (["lib", "libc.so.6"], .link ⟨false, ["libc-2.19.so"]⟩),
     (["lib", "libc-2.19.so"], .file (elfFile "libc")),
     (["lib", "ld-linux-armhf.so.3"], .file (elfFile "ld"))]
    (by decide)

/-- The command `ls`. -/
def ls : Word := ⟨"ls".toList, by decide, by decide⟩

/-- The command `vi`. -/
def vi : Word := ⟨"vi".toList, by decide, by decide⟩

/-- A path of the device. -/
def lsPath : AbsPath := ⟨⟨"/bin/ls".toList, by decide, by decide⟩, rfl⟩

/-- The path of the link. -/
def viPath : AbsPath := ⟨⟨"/bin/vi".toList, by decide, by decide⟩, rfl⟩

/-- The C library, through a link. -/
def libcPath : AbsPath := ⟨⟨"/lib/libc.so.6".toList, by decide, by decide⟩, rfl⟩

/-- The listing of the loader for both programs. -/
def listing : List Line :=
  [.found ⟨"libc.so.6".toList, by decide, by decide⟩ libcPath ⟨"f7d0".toList, by decide, by decide⟩]

/-- The device with `ls` on its path. -/
def lsDevice : World := device deviceTree ls lsPath (by decide) listing

/-- The device with `vi` on its path. -/
def viDevice : World := device deviceTree vi viPath (by decide) listing

theorem lsDevice_sound : lsDevice.Sound Dir.empty [] ls where
  usual := by decide +kernel
  program _ := ⟨lsPath, elfFile "ls", rfl, by decide +kernel, by decide +kernel, by decide⟩
  legible path _ line hline := by
    obtain rfl := List.mem_singleton.mp hline
    exact ⟨by decide, by decide⟩
  complete _ path _ line hline need hneed := by
    obtain rfl := List.mem_singleton.mp hline
    cases hneed
    exact ⟨by decide, elfFile "libc", by decide +kernel⟩
  bin_agrees _ _ c' hc' := by cases hc'
  lib_agrees path _ line hline c' _ _ path' _ line' hline' need hneed _ library hsource := by
    obtain rfl := List.mem_singleton.mp hline
    obtain rfl := List.mem_singleton.mp hline'
    cases hneed
    exact (source_absPath lsDevice Dir.empty libcPath).symm.trans hsource

end Udroid.Import
