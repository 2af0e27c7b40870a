import Userworks.Utility.FileSplitting

/-!
Runs from their options. `Init` and `ClearBranch` prepare the first branch; from
there on a run that is short, with branches that are free, loses nothing.
-/
namespace Userworks.E16.FileUtil

variable {date : Text} {compress : Text → Bytes → Bytes} {f : FileUtil} {names : Nat → Text}
  {t : Batches Bytes} {initial files : Files} {s : Files × FileUtil} {src : Bytes}

/-! ### When a run fits -/

theorem Running.fits (hsettings : Settings date f names) (h : Running initial f names t s)
    (hbranches : t.closed.length + 1 < 2 ^ 31) (hwrites : t.current.length + 1 < 2 ^ 64)
    (hbytes : t.current.flatten.length + src.length < 2 ^ 64)
    (hfree : f.fOpenmode = "create".toList ∨ f.fOpenmode = "new".toList →
      initial (names (t.closed.length + 1)) = none) : Fits date s src := by
  have hcounter := h.counter
  have hothers := h.frame (names (t.closed.length + 1)) fun n hn heq => by
    have := hsettings.injective heq
    omega
  obtain ⟨files, g⟩ := s
  obtain ⟨c, hstate⟩ := h.state
  change g = _ at hstate
  subst hstate
  refine ⟨?_, ?_, ?_⟩
  · rw [hcounter]
    change measured f t.current + weight f src < 2 ^ 64
    cases hsettings.split with
    | inl hsplit => simpa only [measured, weight, hsplit] using hbytes
    | inr hsplit => simpa only [measured, weight, hsplit] using hwrites
  · intro _
    change (t.closed.length : Int) + 1 < 2 ^ 31
    omega
  · intro _ hmode name hname
    rw [← Except.ok.inj ((hsettings.named (t.closed.length + 1)).symm.trans hname), hothers]
    exact hfree hmode

/-- A write closes at most one branch, and what it leaves at hand is no longer than what was there
and the write. -/
theorem push_bounds (full : List Bytes → Bool) (t : Batches Bytes) (src : Bytes) :
    t.closed.length ≤ (t.push full src).closed.length ∧
      (t.push full src).closed.length ≤ t.closed.length + 1 ∧
      (t.push full src).current.length ≤ t.current.length + 1 ∧
      (t.push full src).current.flatten.length ≤ t.current.flatten.length + src.length := by
  rw [Batches.push]
  split
  · simp
  · simp

/-- A run fits when it is short and none of its later branches is there. -/
theorem Running.runFits {ws : List Bytes} (hsettings : Settings date f names)
    (h : Running initial f names t s) (hbranches : t.closed.length + ws.length < 2 ^ 31)
    (hwrites : t.current.length + ws.length < 2 ^ 64)
    (hbytes : t.current.flatten.length + ws.flatten.length < 2 ^ 64)
    (hfree : f.fOpenmode = "create".toList ∨ f.fOpenmode = "new".toList →
      ∀ n, t.closed.length < n → initial (names n) = none) : RunFits date compress s ws := by
  induction ws generalizing t s with
  | nil => trivial
  | cons w ws ih =>
      rw [List.length_cons] at hbranches hwrites
      rw [List.flatten_cons, List.length_append] at hbytes
      have hfits : Fits date s w := h.fits hsettings (by omega) (by omega) (by omega)
        fun hmode => hfree hmode _ (Nat.lt_succ_self _)
      refine ⟨hfits, ?_⟩
      intro s' hwrite
      have hrunning : Running initial f names (t.push (full f) w) s' := by
        obtain ⟨s'', hsame, hrunning⟩ := h.write hsettings hfits
        rw [hwrite] at hsame
        rw [Except.ok.inj hsame]
        exact hrunning
      obtain ⟨hclosed, hclosed', hcurrent, hflat⟩ := push_bounds (full f) t w
      exact ih hrunning (by omega) (by omega) (by omega)
        fun hmode n hn => hfree hmode n (by omega)

/-! ### The first branch -/

/-- A run that names its files by its number, splits them by raw size or by number of iterations
and does not compress. -/
structure Covered (o : Options) : Prop where
  path : o.path = none
  run : 0 ≤ o.runNumber.getD (o.run.getD (-1))
  ext : ∀ ext, o.ext = some ext → ext ∈ fileTypes → ext = ".dat".toList
  split : o.split = "raw-size".toList ∨ o.split = "num-iteration".toList

/-- What `Init` leaves to `ClearBranch`. -/
structure Prepared (f : FileUtil) : Prop where
  name : f.fName = []
  stream : f.fOut = .closed
  first : f.fFirstBranchNum = (0 : Nat)
  run : 0 ≤ f.fRun
  direct : f.fExt = [] ∨ f.fExt = ".dat".toList
  mode : f.fOpenmode ≠ "update".toList

/-- What `Init` and `ClearBranch` leave to the first `Open`. -/
structure Cleared (f : FileUtil) : Prop extends Prepared f where
  sizes : f.fBranchRawSize = []
  iterations : f.fBranchNumIteration = []
  paths : f.fBranchFilePath = []
  branch : f.fBranchNum = (0 : Nat)
  split : f.fSplit = some .rawSize ∨ f.fSplit = some .numIteration

theorem Prepared.setExtension {ext : Text} (h : Prepared f)
    (hext : ext ∈ fileTypes → ext = ".dat".toList) : Prepared (f.setExtension ext) := by
  rw [FileUtil.setExtension]
  split
  · next hmem => exact { h with direct := Or.inr (hext (List.contains_iff_mem.mp hmem)) }
  · exact h

/-- `update` is a mode that `SetOpenmode` does not know. -/
theorem Prepared.setOpenmode (h : Prepared f) (mode : Text) : Prepared (f.setOpenmode mode) := by
  rw [FileUtil.setOpenmode]
  split
  · next hmem =>
      refine { h with mode := ?_ }
      rintro rfl
      revert hmem
      decide
  · exact h

theorem Prepared.setSplit (h : Prepared f) (option : Text) : Prepared (f.setSplit option) := by
  simp only [FileUtil.setSplit]
  split
  · exact { h with }
  split
  · exact { h with }
  split
  · exact { h with }
  · exact { h with }

theorem fSplit_setOpenmode (f : FileUtil) (mode : Text) :
    (f.setOpenmode mode).fSplit = f.fSplit := by
  rw [setOpenmode]
  split
  · rfl
  · rfl

theorem fSplit_setSplit {option : Text}
    (h : option = "raw-size".toList ∨ option = "num-iteration".toList) :
    (f.setSplit option).fSplit = some .rawSize ∨
      (f.setSplit option).fSplit = some .numIteration := by
  cases h with
  | inl h =>
      subst h
      exact Or.inl rfl
  | inr h =>
      subst h
      exact Or.inr rfl

theorem Covered.prepared {o : Options} (h : Covered o) (m : Nat) :
    Prepared (init o { fMaxBranchSize := m }) := by
  have hmode : ([] : Text) ≠ "update".toList := by decide
  have hstart : Prepared { fMaxBranchSize := m, fRun := o.runNumber.getD (o.run.getD (-1)) } :=
    ⟨rfl, rfl, rfl, h.run, Or.inl rfl, hmode⟩
  simp only [init, h.path]
  refine Prepared.setOpenmode (Prepared.setSplit ?_ _) _
  cases hext : o.ext with
  | none =>
      cases o.maxSize with
      | none => exact { hstart with }
      | some n => exact { hstart with }
  | some ext =>
      have hdirect := hstart.setExtension (h.ext ext hext)
      cases o.maxSize with
      | none => exact { hdirect with }
      | some n => exact { hdirect with }

theorem Covered.cleared {o : Options} (h : Covered o) (m : Nat) :
    Cleared (clearBranch (init o { fMaxBranchSize := m })) := by
  have hprepared := h.prepared m
  have hsplit : (init o { fMaxBranchSize := m }).fSplit = some .rawSize ∨
      (init o { fMaxBranchSize := m }).fSplit = some .numIteration := by
    rw [init, fSplit_setOpenmode]
    exact fSplit_setSplit h.split
  exact { hprepared with
    sizes := rfl, iterations := rfl, paths := rfl, branch := hprepared.first, split := hsplit }

theorem Cleared.running (h : Cleared f) (hopen : openFile date (files, f) [] = .ok (true, s)) :
    ∃ names, Settings date s.2 names ∧ Running files s.2 names {} s := by
  have hsplit := split_ne_none h.split
  cases hname : branchName date f 0 with
  | error fault =>
      rw [openFile, chooseName_branch h.name hsplit h.branch, hname] at hopen
      cases hopen
  | ok name =>
      obtain ⟨names, hnamed, hinjective, hdigit⟩ := branchNames date f h.run hname
      have hfirst : names 0 = name := by
        rw [hnamed 0] at hname
        exact Except.ok.inj hname
      cases hrefuses : refuses files { f with fName := name } with
      | true =>
          rw [openFile_branch h.name hsplit h.branch hname, hrefuses] at hopen
          cases hopen
      | false =>
          have hfree := refuses_eq_false_iff.mp hrefuses
          rw [openFile_free h.name h.stream hsplit h.mode h.branch hname
            (hfirst ▸ hdigit 0) hfree] at hopen
          cases hopen
          subst hfirst
          refine ⟨names, ⟨h.direct, h.split, h.mode, hnamed, hinjective, hdigit⟩,
            ⟨⟨[], 0, [], 0, f.fBranchCompressedSize ++ [0]⟩, ?_⟩, ?_, rfl,
            Function.update_self _ _ _,
            fun name hname => Function.update_of_ne (hname 0 (Nat.le_refl 0)) _ _⟩
          · simp only [runState, h.sizes, h.iterations, h.paths, h.branch]
            rfl
          · exact counter_fresh List.getLastD_concat List.getLastD_concat

/-- A run of fewer than `2 ^ 31` writes loses nothing when the mode is `recreate`, or none of its
later branches is there. -/
theorem short_run_lossless (date : Text) (compress : Text → Bytes → Bytes) {o : Options}
    (ho : Covered o) (m : Nat) {files : Files} {s : Files × FileUtil}
    (hopen : openFile date (files, clearBranch (init o { fMaxBranchSize := m })) [] = .ok (true, s))
    {ws : List Bytes} (hwrites : ws.length < 2 ^ 31) (hbytes : ws.flatten.length < 2 ^ 64)
    (hfree : s.2.fOpenmode = "create".toList ∨ s.2.fOpenmode = "new".toList →
      ∀ n name, branchName date s.2 (n + 1) = .ok name → files name = none) :
    ∃ s', writeAll date compress s ws = .ok s' ∧ Lossless ws s' := by
  obtain ⟨names, hsettings, hrunning⟩ := (ho.cleared m).running hopen
  have hfits : RunFits date compress s ws := by
    apply hrunning.runFits hsettings
    · simpa using hwrites
    · simpa using Nat.lt_trans hwrites (show 2 ^ 31 < 2 ^ 64 by decide)
    · simpa using hbytes
    · intro hmode n hn
      obtain ⟨k, rfl⟩ := Nat.exists_eq_succ_of_ne_zero (Nat.pos_iff_ne_zero.mp hn)
      exact hfree hmode k _ (hsettings.named _)
  exact hrunning.run_lossless hsettings hfits

/-- Nothing is lost in a run whose counters hold its writes and whose branches can be opened when
they are asked for. -/
theorem splitting_loses_nothing (date : Text) (compress : Text → Bytes → Bytes) {o : Options}
    (ho : Covered o) (m : Nat) (files : Files) {s : Files × FileUtil}
    (hopen : openFile date (files, clearBranch (init o { fMaxBranchSize := m })) [] = .ok (true, s))
    (ws : List Bytes) (hfits : RunFits date compress s ws) :
    ∃ s', writeAll date compress s ws = .ok s' ∧ Lossless ws s' := by
  obtain ⟨names, hsettings, hrunning⟩ := (ho.cleared m).running hopen
  exact hrunning.run_lossless hsettings hfits

/-- Run 1 with a branch for every write. -/
def everyWrite (openmode : Text) : Options where
  runNumber := some 1
  ext := some ".dat".toList
  runNumberFormat := "run{:06d}".toList
  branchNumberFormat := "_{:03d}".toList
  maxSize := some 0
  split := "num-iteration".toList
  openmode := openmode

/-- The second branch of run 1 is there. -/
def secondBranch : Files := fun name =>
  if name = "run000001_001.dat".toList then some [9] else none

theorem everyWrite_covered (openmode : Text) : Covered (everyWrite openmode) :=
  ⟨rfl, Int.one_nonneg, fun _ h _ => (Option.some.inj h).symm, Or.inr rfl⟩

/-- Recreated, the second branch takes the second write. -/
theorem splitting_recreate : ∃ s s',
    openFile [] (secondBranch, clearBranch (init (everyWrite "recreate".toList)
      { fMaxBranchSize := 0 })) [] = .ok (true, s) ∧
    writeAll [] (fun _ src => src) s [[1], [2]] = .ok s' ∧ Lossless [[1], [2]] s' := by
  have hfirst : ∃ s, openFile [] (secondBranch, clearBranch (init (everyWrite "recreate".toList)
      { fMaxBranchSize := 0 })) [] = .ok (true, s) ∧ s.2.fOpenmode = "recreate".toList :=
    ⟨_, rfl, rfl⟩
  obtain ⟨s, hopen, hmode⟩ := hfirst
  obtain ⟨names, hsettings, hrunning⟩ := ((everyWrite_covered _).cleared 0).running hopen
  have hfits : RunFits [] (fun _ src => src) s [[1], [2]] := by
    apply hrunning.runFits hsettings (by decide) (by decide) (by decide)
    rw [hmode]
    exact fun hguarded => absurd hguarded (by decide)
  obtain ⟨s', hdone⟩ := splitting_loses_nothing [] (fun _ src => src) (everyWrite_covered _) 0
    secondBranch hopen [[1], [2]] hfits
  exact ⟨s, s', hopen, hdone⟩

/-- Refused, it leaves the stream closed, and the second write is nowhere. -/
theorem splitting_loses_write : ∃ s,
    openFile [] (secondBranch, clearBranch (init (everyWrite "create".toList)
      { fMaxBranchSize := 0 })) [] = .ok (true, s) ∧
    ¬ ∃ s', writeAll [] (fun _ src => src) s [[1], [2]] = .ok s' ∧ Lossless [[1], [2]] s' := by
  refine ⟨_, rfl, ?_⟩
  rintro ⟨s', hwrite, hlossless, -⟩
  have hbytes : (s'.2.fBranchFilePath.flatMap fun name => (s'.1 name).getD []) = [1] := by
    cases hwrite
    rfl
  rw [hlossless] at hbytes
  revert hbytes
  decide

end Userworks.E16.FileUtil
