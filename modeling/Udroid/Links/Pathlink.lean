import Udroid.Links.Scripts

/-!
# Links in the root: `udroid-setup-pathlink`

Every line of the script links a name of the root to a target of the same name.  Where the
name leads to a directory, the link is written into that directory.

- `look_runLines_of_last`: a run of lines only writes entries with the names of the lines.
- `framed_iff_quiet`: when a run writes nothing but the names of the root.
- `runLines_eq_self_iff`: when a run changes nothing at all.
- `pathlink_tidy_iff_calm`: when the script is tidy.
-/

namespace Udroid.Links

open Udroid.Unix

variable {α : Type} {limit : Nat} {s : FileTree α}

/-! ## Section 1: One line -/

/-- Where the link of a line goes. -/
def Line.dest (l : Line) (limit : Nat) (s : FileTree α) : Path :=
  (s.leadsTo limit [l.name]).getD [] ++ [l.name]

/-- A directory or this very link is there already. -/
def Line.Settled (l : Line) (limit : Nat) (s : FileTree α) : Prop :=
  s.Occupied (l.dest limit s) l.target

/-- The name leads to a directory other than the root. -/
def Line.Away (l : Line) (limit : Nat) (s : FileTree α) : Prop :=
  ∃ d, s.leadsTo limit [l.name] = some d ∧ d ≠ []

/-- The line's effect where it stays in the root: a name that leads to no directory but the
root becomes the link. -/
def Line.relink (l : Line) (limit : Nat) (s : FileTree α) : FileTree α :=
  match s.leadsTo limit [l.name] with
  | some (_ :: _) => s
  | _ => s.add [l.name] (.link l.target)

theorem Line.lnDest_eq (l : Line) :
    s.lnDest limit l.target [] l.name = some (l.dest limit s) := by
  rw [FileTree.lnDest_eq, Line.dest, List.nil_append, FileTree.leadsTo_nil]
  cases s.leadsTo limit [l.name] with
  | none => rfl
  | some d => simp [l.base_eq]

theorem Line.run_eq_add (l : Line) :
    l.run limit s = s.add (l.dest limit s) (.link l.target) :=
  FileTree.lnSf_eq_add l.lnDest_eq

theorem Line.run_eq_self_iff (l : Line) : l.run limit s = s ↔ l.Settled limit s := by
  rw [Line.run, FileTree.lnSf_eq_self_iff, l.lnDest_eq]
  simp [Line.Settled]

/-- The directory that a name leads to has the entry that is written. -/
theorem Line.dest_of_leadsTo {l : Line} {d : Path} (h : s.leadsTo limit [l.name] = some d) :
    l.dest limit s = d ++ [l.name] := by
  simp [Line.dest, h]

theorem Line.dest_of_not_away {l : Line} (h : ¬ l.Away limit s) : l.dest limit s = [l.name] := by
  unfold Line.dest
  cases hlead : s.leadsTo limit [l.name] with
  | none => rfl
  | some d =>
    have hnil : d = [] := by
      by_contra hne
      exact h ⟨d, hlead, hne⟩
    simp [hnil]

theorem Line.relink_of_not_away {l : Line} (h : ¬ l.Away limit s) :
    l.relink limit s = s.add [l.name] (.link l.target) := by
  unfold Line.relink
  split
  · rename_i d n hlead
    exact absurd ⟨d :: n, hlead, List.cons_ne_nil _ _⟩ h
  · rfl

theorem Line.relink_of_away {l : Line} (h : l.Away limit s) : l.relink limit s = s := by
  obtain ⟨d, hlead, hne⟩ := h
  obtain ⟨x, d, rfl⟩ := List.exists_cons_of_ne_nil hne
  simp [Line.relink, hlead]

/-- A line only writes an entry with its own name. -/
theorem Line.look_run_of_last {l : Line} {q : Path} (h : q.getLast? ≠ some l.name) :
    (l.run limit s).look q = s.look q := by
  rw [Line.run_eq_add]
  apply FileTree.look_add_of_ne
  intro hq
  subst hq
  simp [Line.dest] at h

theorem Line.look_relink_of_ne {l : Line} {q : Path} (h : q ≠ [l.name]) :
    (l.relink limit s).look q = s.look q := by
  by_cases haway : l.Away limit s
  · rw [Line.relink_of_away haway]
  · rw [Line.relink_of_not_away haway]
    exact FileTree.look_add_of_ne h

/-- Where it does not lead away, or is settled, a line does what stays in the root. -/
theorem Line.run_eq_relink {l : Line} (h : l.Away limit s → l.Settled limit s) :
    l.run limit s = l.relink limit s := by
  by_cases haway : l.Away limit s
  -- the entry in the directory is there already
  · rw [Line.relink_of_away haway, l.run_eq_self_iff]
    exact h haway
  · rw [Line.relink_of_not_away haway, l.run_eq_add, Line.dest_of_not_away haway]

/-- A line that leads away and is not settled writes into the directory it leads to. -/
theorem Line.look_run_ne {l : Line} (h : ¬ l.Settled limit s) :
    (l.run limit s).look (l.dest limit s) ≠ s.look (l.dest limit s) := by
  have hwrite : s.Writable (l.dest limit s) := by
    by_contra hnot
    rw [← l.run_eq_self_iff, l.run_eq_add, FileTree.add_of_not_writable hnot] at h
    exact h rfl
  rw [l.run_eq_add, FileTree.look_add_self hwrite]
  exact fun hlook => h (Or.inr hlook.symm)

/-! ## Section 2: A run of lines -/

@[simp] theorem runLines_nil : runLines limit [] s = s := rfl

@[simp] theorem runLines_cons (l : Line) (lines : List Line) :
    runLines limit (l :: lines) s = runLines limit lines (l.run limit s) := rfl

/-- A run only writes entries with the names of its lines. -/
theorem look_runLines_of_last {lines : List Line} {q : Path}
    (h : ∀ l ∈ lines, q.getLast? ≠ some l.name) :
    (runLines limit lines s).look q = s.look q := by
  induction lines generalizing s with
  | nil => rfl
  | cons l lines ih =>
    rw [runLines_cons, ih fun l' hl' => h l' (by simp [hl'])]
    exact Line.look_run_of_last (h l (by simp))

/-- What an unsettled first line writes stays: the other lines write other names. -/
theorem look_runLines_ne {l : Line} {lines : List Line}
    (hnodup : ((l :: lines).map Line.name).Nodup) (h : ¬ l.Settled limit s) :
    (runLines limit (l :: lines) s).look (l.dest limit s) ≠ s.look (l.dest limit s) := by
  have hothers : ∀ l' ∈ lines, (l.dest limit s).getLast? ≠ some l'.name := by
    intro l' hl' hlast
    have hname : l.name = l'.name := by simpa [Line.dest] using hlast
    have hmem : l.name ∈ lines.map Line.name := hname ▸ List.mem_map_of_mem hl'
    exact (List.nodup_cons.mp hnodup).1 hmem
  rw [runLines_cons, look_runLines_of_last hothers]
  exact Line.look_run_ne h

/-- A run changes nothing exactly if every line of it is settled. -/
theorem runLines_eq_self_iff {lines : List Line} (hnodup : (lines.map Line.name).Nodup) :
    runLines limit lines s = s ↔ ∀ l ∈ lines, l.Settled limit s := by
  induction lines with
  | nil => simp
  | cons l lines ih =>
    by_cases hsettled : l.Settled limit s
    -- a settled line does nothing, and the others run on the same state
    · rw [runLines_cons, l.run_eq_self_iff.mpr hsettled, ih (List.nodup_cons.mp hnodup).2]
      simp [hsettled]
    · refine iff_of_false ?_ fun h => hsettled (h l (by simp))
      intro h
      exact look_runLines_ne hnodup hsettled (by rw [h])

/-- At its turn, every line that leads away is settled; the others become links. -/
def Quiet (limit : Nat) : FileTree α → List Line → Prop
  | _, [] => True
  | s, l :: lines => (l.Away limit s → l.Settled limit s) ∧ Quiet limit (l.relink limit s) lines

/-- The names of the lines, those that lead to no directory but the root made links. -/
def relinkAll (limit : Nat) (lines : List Line) (s : FileTree α) : FileTree α :=
  lines.foldl (fun s l => l.relink limit s) s

theorem runLines_of_quiet {lines : List Line} (h : Quiet limit s lines) :
    runLines limit lines s = relinkAll limit lines s := by
  induction lines generalizing s with
  | nil => rfl
  | cons l lines ih =>
    rw [runLines_cons, Line.run_eq_relink h.1]
    exact ih h.2

/-- A run writes only names of the root, out of a list that has the names of the lines,
exactly if it is quiet. -/
theorem framed_iff_quiet {names : List Name} {lines : List Line}
    (hnames : ∀ l ∈ lines, l.name ∈ names) (hnodup : (lines.map Line.name).Nodup) :
    (∀ p, (∀ n ∈ names, p ≠ [n]) → (runLines limit lines s).look p = s.look p) ↔
      Quiet limit s lines := by
  induction lines generalizing s with
  | nil => simp [Quiet]
  | cons l lines ih =>
    have hrest := ih (s := l.relink limit s) (fun l' hl' => hnames l' (by simp [hl']))
      (List.nodup_cons.mp hnodup).2
    have hroot : ∀ p, (∀ n ∈ names, p ≠ [n]) → (l.relink limit s).look p = s.look p :=
      fun p hp => Line.look_relink_of_ne (hp l.name (hnames l (by simp)))
    by_cases hcalm : l.Away limit s → l.Settled limit s
    · -- the first line stays in the root
      rw [Quiet, ← hrest, runLines_cons, Line.run_eq_relink hcalm]
      refine ⟨fun h => ⟨hcalm, fun p hp => (h p hp).trans (hroot p hp).symm⟩,
        fun h p hp => (h.2 p hp).trans (hroot p hp)⟩
    · refine iff_of_false ?_ fun h => hcalm h.1
      obtain ⟨⟨d, hlead, hne⟩, hunsettled⟩ : l.Away limit s ∧ ¬ l.Settled limit s := by
        simpa using hcalm
      intro h
      refine look_runLines_ne hnodup hunsettled (h _ ?_)
      -- the entry is below a directory that is not the root
      intro n _ heq
      rw [Line.dest_of_leadsTo hlead] at heq
      have hlen := congrArg List.length heq
      exact hne (by simpa using hlen)

/-! ## Section 3: The script -/

/-- The names that `udroid-setup-pathlink` lists. -/
def pathlinkListed (p : Path) : Prop :=
  ∃ l ∈ pathLinks, p = [l.name]

/-- Each name in turn leads to no directory but the root, or to one whose entry of that name
is a directory or the link itself; and once the names are links, this holds of all of
them, wherever they lead. -/
def PathlinkCalm (limit : Nat) (s : FileTree α) : Prop :=
  Quiet limit s pathLinks ∧ ∀ l ∈ pathLinks, l.Settled limit (relinkAll limit pathLinks s)

theorem pathLinks_nodup : (pathLinks.map Line.name).Nodup := by decide

/-- The script is tidy exactly where it is calm. -/
theorem pathlink_tidy_iff_calm :
    Tidy (udroidSetupPathlink limit) (fun _ => pathlinkListed) s ↔ PathlinkCalm limit s := by
  have hlisted : ∀ p, ¬ pathlinkListed p ↔ ∀ n ∈ pathLinks.map Line.name, p ≠ [n] := by
    intro p
    simp [pathlinkListed]
  have hframe : (∀ p, (∀ n ∈ pathLinks.map Line.name, p ≠ [n]) →
      (runLines limit pathLinks s).look p = s.look p) ↔ Quiet limit s pathLinks :=
    framed_iff_quiet (fun l hl => List.mem_map_of_mem hl) pathLinks_nodup
  simp only [tidy_iff, hlisted]
  constructor
  · intro h
    obtain ⟨htwice, hframed⟩ := h
    -- the frame makes the run quiet, so that it only relinks; a second run must then do nothing
    have hquiet := hframe.mp hframed
    have hrun : udroidSetupPathlink limit s = relinkAll limit pathLinks s :=
      runLines_of_quiet hquiet
    rw [hrun] at htwice
    exact ⟨hquiet, (runLines_eq_self_iff pathLinks_nodup).mp htwice⟩
  · intro h
    obtain ⟨hquiet, hsettled⟩ := h
    have hrun : udroidSetupPathlink limit s = relinkAll limit pathLinks s :=
      runLines_of_quiet hquiet
    refine ⟨?_, hframe.mpr hquiet⟩
    rw [hrun]
    exact (runLines_eq_self_iff pathLinks_nodup).mpr hsettled

end Udroid.Links
