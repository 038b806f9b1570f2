import Udroid.Links.Scripts

/-!
# `udroid-setup-fonts`

The script makes a directory and links Android's fonts into it.  Once the link is there it
leads to a directory, and the next link goes into that.

- `fonts_eq_self_iff`: when a run changes nothing.
- `fonts_framed_iff`: when a run writes nothing but the link.
- `fonts_tidy_iff_calm`: when the script is tidy.
-/

namespace Udroid.Links

open Udroid.Unix

variable {α : Type} {limit : Nat} {s : FileTree α}

/-! ## Section 1: The link and its place -/

/-- The link, where the directory it is to stand in leads somewhere. -/
def fontsListed (limit : Nat) (s : FileTree α) (p : Path) : Prop :=
  ∃ d, s.leadsTo limit fontsDir = some d ∧ p = d ++ [androidFont]

/-- No directory has to be made. -/
def NothingMissing (limit : Nat) (s : FileTree α) : Prop :=
  ∀ a n b, fontsDir = a ++ n :: b → ¬ s.Missing limit a n

/-- If the link's name leads to a directory, the entry written there is a directory or the
link itself. -/
def InsideSettled (limit : Nat) (s : FileTree α) : Prop :=
  ∀ d, s.leadsTo limit (fontsDir ++ [androidFont]) = some d →
    s.Occupied (d ++ [systemFonts.base]) systemFonts

/-- The link in its place, if its name leads to no directory. -/
def relinkFonts (limit : Nat) (s : FileTree α) : FileTree α :=
  match s.leadsTo limit (fontsDir ++ [androidFont]), s.leadsTo limit fontsDir with
  | none, some d => s.add (d ++ [androidFont]) (.link systemFonts)
  | _, _ => s

/-- Nothing is missing and nothing would be written into a directory; and once the link is
in its place, nothing is missing and nothing would be written at all. -/
def FontsCalm (limit : Nat) (s : FileTree α) : Prop :=
  (NothingMissing limit s ∧ InsideSettled limit s) ∧
    NothingMissing limit (relinkFonts limit s) ∧
      ∀ p, (relinkFonts limit s).lnDest limit systemFonts fontsDir androidFont = some p →
        (relinkFonts limit s).Occupied p systemFonts

theorem mkdirP_fontsDir_eq_self_iff :
    s.mkdirP limit [] fontsDir = s ↔ NothingMissing limit s := by
  rw [FileTree.mkdirP_eq_self_iff]
  rfl

/-- Nothing is missing if the directory is there. -/
theorem nothingMissing_of_leadsTo {d : Path} (h : s.leadsTo limit fontsDir = some d) :
    NothingMissing limit s := by
  intro a n b hab
  have hnames : ∀ n ∈ fontsDir, n ≠ "." ∧ n ≠ ".." := by decide
  obtain ⟨hdot, hdots⟩ := hnames n (by rw [hab]; simp)
  exact FileTree.not_missing_of_leadsTo hdot hdots (hab ▸ h)

/-! ## Section 2: One run -/

/-- What a run does where nothing is missing. -/
theorem fonts_eq_lnSf (h : NothingMissing limit s) :
    udroidSetupFonts limit s = s.lnSf limit systemFonts fontsDir androidFont := by
  rw [udroidSetupFonts, mkdirP_fontsDir_eq_self_iff.mpr h]

/-- A run that has to make a directory makes one that was not there. -/
theorem exists_made (h : ¬ NothingMissing limit s) :
    ∃ p, s.look p = none ∧ (udroidSetupFonts limit s).look p = some .dir := by
  rw [← mkdirP_fontsDir_eq_self_iff] at h
  obtain ⟨p, hnone, hmade⟩ := (FileTree.mkdirP_eq_self_or limit s [] fontsDir).resolve_left h
  exact ⟨p, hnone, FileTree.look_lnSf_of_dir hmade⟩

theorem fonts_eq_self_iff :
    udroidSetupFonts limit s = s ↔ NothingMissing limit s ∧
      ∀ p, s.lnDest limit systemFonts fontsDir androidFont = some p → s.Occupied p systemFonts := by
  by_cases hmissing : NothingMissing limit s
  · rw [fonts_eq_lnSf hmissing, FileTree.lnSf_eq_self_iff]
    simp [hmissing]
  · refine iff_of_false ?_ fun h => hmissing h.1
    intro h
    obtain ⟨p, hnone, hmade⟩ := exists_made hmissing
    rw [h, hnone] at hmade
    cases hmade

theorem lnDest_of_leadsTo {d : Path}
    (h : s.leadsTo limit (fontsDir ++ [androidFont]) = some d) :
    s.lnDest limit systemFonts fontsDir androidFont = some (d ++ [systemFonts.base]) := by
  simp [FileTree.lnDest_eq, h]

/-- Where nothing goes into a directory a run puts the link in its place. -/
theorem fonts_eq_relink (hmissing : NothingMissing limit s) (hinside : InsideSettled limit s) :
    udroidSetupFonts limit s = relinkFonts limit s := by
  rw [fonts_eq_lnSf hmissing]
  unfold relinkFonts
  split
  · -- the name leads to no directory, and its directory is there
    rename_i d hlead hparent
    have hdest : s.lnDest limit systemFonts fontsDir androidFont = some (d ++ [androidFont]) := by
      simp [FileTree.lnDest_eq, hlead, hparent]
    exact FileTree.lnSf_eq_add hdest
  · rename_i hnot
    rw [FileTree.lnSf_eq_self_iff]
    intro p hp
    cases hlead : s.leadsTo limit (fontsDir ++ [androidFont]) with
    | some d =>
      rw [lnDest_of_leadsTo hlead, Option.some_inj] at hp
      exact hp ▸ hinside d hlead
    | none =>
      cases hparent : s.leadsTo limit fontsDir with
      | some d => exact absurd hparent (hnot d hlead)
      | none => simp [FileTree.lnDest_eq, hlead, hparent] at hp

theorem look_relinkFonts_of_not_listed {p : Path} (h : ¬ fontsListed limit s p) :
    (relinkFonts limit s).look p = s.look p := by
  unfold relinkFonts
  split
  · rename_i d _ hparent
    exact FileTree.look_add_of_ne fun hp => h ⟨d, hparent, hp⟩
  · rfl

/-- A run writes nothing but the link exactly if nothing is missing and nothing goes into a
directory. -/
theorem fonts_framed_iff :
    (∀ p, ¬ fontsListed limit s p → (udroidSetupFonts limit s).look p = s.look p) ↔
      NothingMissing limit s ∧ InsideSettled limit s := by
  constructor
  · intro h
    have hmissing : NothingMissing limit s := by
      by_contra hmissing
      -- a directory that is made is no listed entry: the link's directory leads nowhere then
      obtain ⟨p, hnone, hmade⟩ := exists_made hmissing
      have hunlisted : ¬ fontsListed limit s p := by
        intro hlisted
        obtain ⟨d, hd, -⟩ := hlisted
        exact hmissing (nothingMissing_of_leadsTo hd)
      rw [h p hunlisted, hnone] at hmade
      cases hmade
    refine ⟨hmissing, ?_⟩
    intro d hlead
    have hunlisted : ¬ fontsListed limit s (d ++ [systemFonts.base]) := by
      intro hlisted
      obtain ⟨e, -, heq⟩ := hlisted
      -- the last names differ
      have hlast := congrArg List.getLast? heq
      simp only [List.getLast?_concat] at hlast
      revert hlast
      decide
    have hlook := h _ hunlisted
    rw [fonts_eq_lnSf hmissing, FileTree.lnSf_eq_add (lnDest_of_leadsTo hlead)] at hlook
    -- what is written there is what was there, or there is a directory in the way
    by_cases hwrite : s.Writable (d ++ [systemFonts.base])
    · rw [FileTree.look_add_self hwrite] at hlook
      exact Or.inr hlook.symm
    · refine Or.inl ?_
      by_contra hdir
      refine hwrite (FileTree.writable_iff.mpr ⟨by simp, ?_, hdir⟩)
      rw [List.dropLast_concat]
      exact (FileTree.leadsTo_eq_some.mp hlead).2
  · intro h p hp
    obtain ⟨hmissing, hinside⟩ := h
    rw [fonts_eq_relink hmissing hinside]
    exact look_relinkFonts_of_not_listed hp

/-! ## Section 3: The script -/

/-- The script is tidy exactly where it is calm. -/
theorem fonts_tidy_iff_calm :
    Tidy (udroidSetupFonts limit) (fontsListed limit) s ↔ FontsCalm limit s := by
  rw [tidy_iff, fonts_framed_iff]
  constructor
  · intro h
    obtain ⟨htwice, hmissing, hinside⟩ := h
    rw [fonts_eq_relink hmissing hinside] at htwice
    exact ⟨⟨hmissing, hinside⟩, fonts_eq_self_iff.mp htwice⟩
  · intro h
    obtain ⟨⟨hmissing, hinside⟩, hcalm⟩ := h
    rw [fonts_eq_relink hmissing hinside]
    exact ⟨fonts_eq_self_iff.mpr hcalm, hmissing, hinside⟩

end Udroid.Links
