import Mathlib.Data.List.Nodup
import Userworks.Lib.Batches
import Userworks.Utility.BranchNames

/-!
What a run writes to its branches. The files of a run are its writes, cut into
batches by the split policy, as long as each branch that is asked for is opened.
`Write` does not look whether it is: where a file of that name is left alone, the
stream stays closed and what is written is lost.
-/
namespace Userworks.E16.FileUtil

variable {date : Text} {compress : Text → Bytes → Bytes} {f g : FileUtil} {names : Nat → Text}
  {t : Batches Bytes} {initial files : Files} {s : Files × FileUtil} {src : Bytes}

/-! ### What is asked of a run -/

/-- What the split policy counts of a branch. -/
def measured (f : FileUtil) (branch : List Bytes) : Nat :=
  match f.fSplit with
  | some .numIteration => branch.length
  | _ => branch.flatten.length

def full (f : FileUtil) (branch : List Bytes) : Bool :=
  decide (f.fMaxBranchSize ≤ measured f branch)

/-- The writes `ws` stand in the branch files of the run, in their order, each in one file; and a
branch that is closed reached the threshold with its last write. -/
def Lossless (ws : List Bytes) (s : Files × FileUtil) : Prop :=
  (s.2.fBranchFilePath.flatMap fun name => (s.1 name).getD []) = ws.flatten ∧
    s.2.fBranchFilePath.Nodup ∧
    ∃ branches : Batches Bytes, branches.items = ws ∧
      s.2.fBranchFilePath.map s.1 = branches.all.map (fun branch => some branch.flatten) ∧
      ∀ branch ∈ branches.closed, FullAtLast (full s.2) branch

def writeAll (date : Text) (compress : Text → Bytes → Bytes) (s : Files × FileUtil)
    (ws : List Bytes) : Except FileFault (Files × FileUtil) :=
  ws.foldlM (write date compress) s

/-- The counter of the branch at hand that the split policy looks at. -/
def counter (f : FileUtil) : Nat :=
  match f.fSplit with
  | some .numIteration => f.fBranchNumIteration.getLastD 0
  | _ => f.fBranchRawSize.getLastD 0

/-- What a write adds to the counter. -/
def weight (f : FileUtil) (src : Bytes) : Nat :=
  match f.fSplit with
  | some .numIteration => 1
  | _ => src.length

/-- The write makes the branch reach the threshold. -/
def Crosses (f : FileUtil) (src : Bytes) : Prop := f.fMaxBranchSize ≤ counter f + weight f src

/-- The counter holds the write, and the branch that it may ask for can be opened. -/
structure Fits (date : Text) (s : Files × FileUtil) (src : Bytes) : Prop where
  counter : counter s.2 + weight s.2 src < 2 ^ 64
  number : Crosses s.2 src → s.2.fBranchNum + 1 < 2 ^ 31
  free : Crosses s.2 src → s.2.fOpenmode = "create".toList ∨ s.2.fOpenmode = "new".toList →
    ∀ name, branchName date s.2 (s.2.fBranchNum + 1).toNat = .ok name → s.1 name = none

def RunFits (date : Text) (compress : Text → Bytes → Bytes) : Files × FileUtil → List Bytes → Prop
  | _, [] => True
  | s, w :: ws => Fits date s w ∧ ∀ s', write date compress s w = .ok s' →
      RunFits date compress s' ws

/-! ### The state of a run -/

/-- What does not change in a run. -/
structure Settings (date : Text) (f : FileUtil) (names : Nat → Text) : Prop where
  direct : f.fExt = [] ∨ f.fExt = ".dat".toList
  split : f.fSplit = some .rawSize ∨ f.fSplit = some .numIteration
  mode : f.fOpenmode ≠ "update".toList
  named : ∀ n, branchName date f n = .ok (names n)
  injective : Function.Injective names
  digit : ∀ n, ∃ c ∈ names n, isdigit c = true

theorem split_ne_none (h : f.fSplit = some .rawSize ∨ f.fSplit = some .numIteration) :
    f.fSplit ≠ none := by
  cases h with
  | inl hsplit => simp [hsplit]
  | inr hsplit => simp [hsplit]

/-- The counters of the closed branches, of the branch at hand, and what was compressed. -/
structure Counters where
  sizes : List Nat
  size : Nat
  iterations : List Nat
  iteration : Nat
  compressed : List Nat

/-- The fields when the writes of `t` are done. -/
def runState (f : FileUtil) (names : Nat → Text) (t : Batches Bytes) (c : Counters) : FileUtil :=
  { f with
    fName := names t.closed.length
    fBranchNum := t.closed.length
    fOut := .writing (names t.closed.length)
    fBranchRawSize := c.sizes ++ [c.size]
    fBranchNumIteration := c.iterations ++ [c.iteration]
    fBranchCompressedSize := c.compressed
    fBranchFilePath := (List.range (t.closed.length + 1)).map names }

/-- The state when the writes of `t` are done. Files that are none of the branches are as they
were. -/
structure Running (initial : Files) (f : FileUtil) (names : Nat → Text) (t : Batches Bytes)
    (s : Files × FileUtil) : Prop where
  state : ∃ c, s.2 = runState f names t c
  counter : counter s.2 = measured f t.current
  files : (List.range t.closed.length).map (fun n => s.1 (names n)) =
    t.closed.map fun branch => some branch.flatten
  current : s.1 (names t.closed.length) = some t.current.flatten
  frame : ∀ name, (∀ n ≤ t.closed.length, name ≠ names n) → s.1 name = initial name

theorem Running.lossless (hsettings : Settings date f names) (h : Running initial f names t s)
    (hsharp : t.Sharp (full f)) : Lossless t.items s := by
  obtain ⟨c, hstate⟩ := h.state
  have hpaths : s.2.fBranchFilePath = (List.range (t.closed.length + 1)).map names := by
    rw [hstate]
    rfl
  have hcontents : s.2.fBranchFilePath.map s.1 = t.all.map fun branch => some branch.flatten := by
    rw [hpaths, List.range_succ, List.map_append, List.map_append, List.map_map, Batches.all,
      List.map_append]
    exact congrArg₂ (· ++ ·) h.files (congrArg (fun content => [content]) h.current)
  refine ⟨?_, ?_, t, rfl, hcontents, ?_⟩
  · have hflat : (s.2.fBranchFilePath.flatMap fun name => (s.1 name).getD []) =
        ((s.2.fBranchFilePath.map s.1).map (·.getD [])).flatten := by
      rw [List.map_map, List.flatMap_def]
      rfl
    rw [hflat, hcontents, List.map_map, Batches.items]
    exact List.flatten_flatten.symm
  · rw [hpaths]
    exact List.Nodup.map hsettings.injective List.nodup_range
  · have hfull : full s.2 = full f := by
      funext branch
      rw [hstate]
      rfl
    rw [hfull]
    exact hsharp.closed

/-! ### One write -/

theorem addBack_concat (v : List Nat) (last n : Nat) :
    addBack (v ++ [last]) n = .ok (v ++ [(last + n) % 2 ^ 64]) := by
  rw [addBack, List.getLast?_concat]
  simp only [List.dropLast_concat]

theorem back_concat (v : List Nat) (last : Nat) : back (v ++ [last]) = .ok last := by
  rw [back, List.getLast?_concat]

/-- The counters of a branch that is opened. -/
theorem counter_fresh (hsize : g.fBranchRawSize.getLastD 0 = 0)
    (hiteration : g.fBranchNumIteration.getLastD 0 = 0) : counter g = measured f [] := by
  have hmeasured : measured f [] = 0 := by
    rw [measured]
    split
    · rfl
    · rfl
  rw [hmeasured, counter]
  split
  · exact hiteration
  · exact hsize

theorem measured_concat (hsplit : f.fSplit = some .rawSize ∨ f.fSplit = some .numIteration)
    (branch : List Bytes) (src : Bytes) :
    measured f (branch ++ [src]) = measured f branch + weight f src := by
  cases hsplit with
  | inl hsplit => simp [measured, weight, hsplit]
  | inr hsplit => simp [measured, weight, hsplit]

theorem emitCompressed_direct (files : Files) (src : Bytes)
    (h : f.fExt = [] ∨ f.fExt = ".dat".toList) :
    emitCompressed compress files f src = .ok (emit files f src, f) := if_pos h

/-- A file that is none of the branches up to `k` may change. -/
theorem map_update {files : Files} {names : Nat → Text} (hinjective : Function.Injective names)
    {k b : Nat} (hb : k ≤ b) (content : Option Bytes) :
    (List.range k).map (fun n => Function.update files (names b) content (names n)) =
      (List.range k).map fun n => files (names n) := by
  apply List.map_congr_left
  intro n hn
  have hlt := List.mem_range.mp hn
  exact Function.update_of_ne (fun heq => by have := hinjective heq; omega) _ _

/-- The counters after a write. -/
def Counters.add (c : Counters) (length : Nat) : Counters :=
  { c with size := (c.size + length) % 2 ^ 64, iteration := (c.iteration + 1) % 2 ^ 64 }

theorem count_runState (t' : Batches Bytes) (c : Counters) (length : Nat)
    (hclosed : t'.closed = t.closed) :
    FileUtil.count (runState f names t c) length = .ok (runState f names t' (c.add length)) := by
  rw [FileUtil.count, runState, runState, addBack_concat, hclosed]
  change (addBack (c.iterations ++ [c.iteration]) 1 >>= _) = _
  rw [addBack_concat]
  rfl

theorem counter_add (hsplit : f.fSplit = some .rawSize ∨ f.fSplit = some .numIteration)
    (t' : Batches Bytes) (c : Counters) (src : Bytes) :
    counter (runState f names t' (c.add src.length)) =
      (counter (runState f names t c) + weight f src) % 2 ^ 64 := by
  cases hsplit with
  | inl hsplit => simp [counter, weight, runState, Counters.add, hsplit]
  | inr hsplit => simp [counter, weight, runState, Counters.add, hsplit]

/-- The write goes to the branch at hand, and is counted. -/
theorem Running.count (hsettings : Settings date f names) (h : Running initial f names t (files, g))
    (hfits : FileUtil.counter g + weight g src < 2 ^ 64) :
    ∃ g', FileUtil.count g src.length = .ok g' ∧
      Running initial f names ⟨t.closed, t.current ++ [src]⟩ (emit files g src, g') := by
  obtain ⟨c, hstate⟩ := h.state
  change g = _ at hstate
  subst hstate
  refine ⟨_, count_runState ⟨t.closed, t.current ++ [src]⟩ c src.length rfl,
    ⟨_, rfl⟩, ?_, ?_, ?_, ?_⟩
  · have hcounter : FileUtil.counter (runState f names t c) = measured f t.current := h.counter
    rw [counter_add (t := t) hsettings.split, measured_concat hsettings.split, ← hcounter]
    exact Nat.mod_eq_of_lt hfits
  · exact (map_update hsettings.injective (Nat.le_refl _) _).trans h.files
  · have hcurrent : files (names t.closed.length) = some t.current.flatten := h.current
    change Function.update files _ _ _ = _
    rw [Function.update_self, hcurrent]
    simp
  · intro name hname
    change Function.update files _ _ _ = _
    rw [Function.update_of_ne (hname _ (Nat.le_refl _))]
    exact h.frame name hname

theorem Running.branchNum (h : Running initial f names t s) : s.2.fBranchNum = t.closed.length := by
  obtain ⟨c, hstate⟩ := h.state
  rw [hstate]
  rfl

theorem splits_runState (hsplit : f.fSplit = some .rawSize ∨ f.fSplit = some .numIteration)
    (c : Counters) : FileUtil.splits (runState f names t c) =
      .ok (decide (f.fMaxBranchSize ≤ counter (runState f names t c))) := by
  cases hsplit with
  | inl hsplit =>
      simp only [FileUtil.splits, counter, runState, hsplit, back_concat, List.getLastD_concat]
      rfl
  | inr hsplit =>
      simp only [FileUtil.splits, counter, runState, hsplit, back_concat, List.getLastD_concat]
      rfl

theorem Running.splits (hsettings : Settings date f names) (h : Running initial f names t s) :
    FileUtil.splits s.2 = .ok (full f t.current) := by
  obtain ⟨c, hstate⟩ := h.state
  rw [full, ← h.counter, hstate]
  exact splits_runState hsettings.split c

/-! ### The next branch -/

theorem chooseName_branch {b : Nat} (hempty : f.fName = []) (hsplit : f.fSplit ≠ none)
    (hbranch : f.fBranchNum = b) :
    chooseName date f [] = (branchName date f b).map fun name => { f with fName := name } := by
  have hself : { f with fBranchNum := (b : Int) } = f := by rw [← hbranch]
  rw [branchName, hself, chooseName, if_pos hempty, if_neg hsplit]
  change (generateFileName date f [] >>= _) = _
  cases generateFileName date f [] with
  | error fault => rfl
  | ok fileName => rfl

theorem refuses_eq_false_iff : refuses files f = false ↔
    (f.fOpenmode = "create".toList ∨ f.fOpenmode = "new".toList → files f.fName = none) := by
  have hmode : (f.fOpenmode = "create".toList || f.fOpenmode = "new".toList : Bool) = true ↔
      f.fOpenmode = "create".toList ∨ f.fOpenmode = "new".toList := by
    rw [Bool.or_eq_true, decide_eq_true_iff, decide_eq_true_iff]
  rw [refuses, ← Bool.not_eq_true, Bool.and_eq_true, hmode, not_and',
    Option.not_isSome_iff_eq_none]

/-- The name of a branch is not that of the null device. -/
theorem pushBranch_of_digit (h : ∃ c ∈ f.fName, isdigit c = true) :
    f.pushBranch = { f with
      fBranchRawSize := f.fBranchRawSize ++ [0]
      fBranchCompressedSize := f.fBranchCompressedSize ++ [0]
      fBranchNumIteration := f.fBranchNumIteration ++ [0]
      fBranchFilePath := f.fBranchFilePath ++ [f.fName] } := by
  have hnull : f.fName ≠ "/dev/null".toList := by
    intro heq
    obtain ⟨c, hc, hdigit⟩ := h
    have hdevice : "/dev/null".toList.all (fun c => !isdigit c) = true := by decide
    have hnone := List.all_eq_true.mp hdevice c (heq ▸ hc)
    rw [hdigit] at hnone
    cases hnone
  rw [pushBranch, if_neg hnull]

theorem openFile_branch {b : Nat} {name : Text} (hempty : f.fName = []) (hsplit : f.fSplit ≠ none)
    (hbranch : f.fBranchNum = b) (hname : branchName date f b = .ok name) :
    openFile date (files, f) [] =
      if refuses files { f with fName := name } then .ok (false, files, { f with fName := name })
      else .ok (true, (openStream files { f with fName := name }).1,
        (openStream files { f with fName := name }).2.pushBranch) := by
  rw [openFile, chooseName_branch hempty hsplit hbranch, hname]
  rfl

/-- A branch that is opened is empty, and the files of other names are as they were. -/
theorem openFile_free {b : Nat} {name : Text} (hempty : f.fName = []) (hclosed : f.fOut = .closed)
    (hsplit : f.fSplit ≠ none) (hmode : f.fOpenmode ≠ "update".toList) (hbranch : f.fBranchNum = b)
    (hname : branchName date f b = .ok name) (hdigit : ∃ c ∈ name, isdigit c = true)
    (hfree : f.fOpenmode = "create".toList ∨ f.fOpenmode = "new".toList → files name = none) :
    openFile date (files, f) [] = .ok (true, Function.update files name (some []), { f with
      fName := name
      fOut := .writing name
      fBranchRawSize := f.fBranchRawSize ++ [0]
      fBranchCompressedSize := f.fBranchCompressedSize ++ [0]
      fBranchNumIteration := f.fBranchNumIteration ++ [0]
      fBranchFilePath := f.fBranchFilePath ++ [name] }) := by
  have hopened : openStream files { f with fName := name } =
      (Function.update files name (some []), { f with fName := name, fOut := .writing name }) := by
    simp only [openStream, hclosed, if_neg hmode]
  have hrefuses : refuses files { f with fName := name } = false :=
    refuses_eq_false_iff.mpr hfree
  rw [openFile_branch hempty hsplit hbranch hname, hrefuses, if_neg Bool.false_ne_true, hopened,
    pushBranch_of_digit hdigit]

/-- The branch at hand is closed and the next one is opened. -/
theorem Running.next (hsettings : Settings date f names) (h : Running initial f names t (files, g))
    (hnumber : g.fBranchNum + 1 < 2 ^ 31)
    (hfree : f.fOpenmode = "create".toList ∨ f.fOpenmode = "new".toList →
      files (names (t.closed.length + 1)) = none) :
    ∃ g' s', nextBranch g.close = .ok g' ∧ openFile date (files, g') [] = .ok (true, s') ∧
      Running initial f names ⟨t.closed ++ [t.current], []⟩ s' := by
  obtain ⟨c, hstate⟩ := h.state
  change g = _ at hstate
  subst hstate
  have hnumber : (t.closed.length : Int) + 1 < 2 ^ 31 := hnumber
  have hsplit := split_ne_none hsettings.split
  have hlength : (t.closed ++ [t.current]).length = t.closed.length + 1 := List.length_append
  refine ⟨{ (runState f names t c) with
    fOut := .closed, fName := [], fBranchNum := t.closed.length + 1 }, _, ?_,
    openFile_free (b := t.closed.length + 1) rfl rfl hsplit hsettings.mode rfl
      (hsettings.named _) (hsettings.digit _) hfree, ?_⟩
  · change (if (t.closed.length : Int) < 0 then _ else _) = _
    rw [if_neg (by omega)]
    exact if_pos hnumber
  · refine ⟨⟨⟨c.sizes ++ [c.size], 0, c.iterations ++ [c.iteration], 0, c.compressed ++ [0]⟩, ?_⟩,
      ?_, ?_, ?_, ?_⟩
    · rw [runState, runState, hlength, List.range_succ (n := t.closed.length + 1), List.map_append]
      rfl
    · exact counter_fresh List.getLastD_concat List.getLastD_concat
    · rw [hlength, List.range_succ, List.map_append, List.map_append]
      have hbranches : (List.range t.closed.length).map (fun n =>
          Function.update files (names (t.closed.length + 1)) (some []) (names n)) = _ :=
        map_update hsettings.injective (Nat.le_succ t.closed.length) (some [])
      have hcurrent : Function.update files (names (t.closed.length + 1)) (some [])
          (names t.closed.length) = some t.current.flatten := by
        rw [Function.update_of_ne (fun heq => by have := hsettings.injective heq; omega)]
        exact h.current
      exact congrArg₂ (· ++ ·) (hbranches.trans h.files)
        (congrArg (fun content => [content]) hcurrent)
    · rw [hlength]
      exact Function.update_self _ _ _
    · intro name hname
      rw [hlength] at hname
      change Function.update files _ _ _ = _
      rw [Function.update_of_ne (hname _ (Nat.le_refl _))]
      exact h.frame name fun n hn => hname n (by omega)

theorem Running.crosses (hsettings : Settings date f names) (h : Running initial f names t s)
    (hfull : full f (t.current ++ [src]) = true) : Crosses s.2 src := by
  have hmeasured := of_decide_eq_true hfull
  rw [measured_concat hsettings.split, ← h.counter] at hmeasured
  obtain ⟨c, hstate⟩ := h.state
  rw [hstate] at hmeasured ⊢
  exact hmeasured

/-- The branch that a write asks for is free when it is opened, if it is so before the write. -/
theorem Running.free (hsettings : Settings date f names) (h : Running initial f names t (files, g))
    (hfits : Fits date (files, g) src) (hcrosses : Crosses g src)
    (hmode : f.fOpenmode = "create".toList ∨ f.fOpenmode = "new".toList) :
    emit files g src (names (t.closed.length + 1)) = none := by
  obtain ⟨c, hstate⟩ := h.state
  change g = _ at hstate
  subst hstate
  have hfree := hfits.free hcrosses hmode (names (t.closed.length + 1)) (hsettings.named _)
  change Function.update files _ _ _ = _
  rw [Function.update_of_ne (fun heq => by have := hsettings.injective heq; omega)]
  exact hfree

/-- A write in its parts: what is put out, what is counted, and the branch that is opened. -/
theorem write_parts {g' : FileUtil} {crossed : Bool}
    (hemit : emitCompressed compress files g src = .ok (emit files g src, g))
    (hcount : FileUtil.count g src.length = .ok g')
    (hsplits : FileUtil.splits g' = .ok crossed) :
    FileUtil.write date compress (files, g) src =
      if crossed then nextBranch g'.close >>= fun g'' =>
        openFile date (emit files g src, g'') [] >>= fun opened => .ok opened.2
      else .ok (emit files g src, g') := by
  rw [FileUtil.write, hemit]
  change (FileUtil.count g src.length >>= _) = _
  rw [hcount]
  change (FileUtil.splits g' >>= _) = _
  rw [hsplits]
  rfl

theorem Running.write (hsettings : Settings date f names) (h : Running initial f names t s)
    (hfits : Fits date s src) :
    ∃ s', FileUtil.write date compress s src = .ok s' ∧
      Running initial f names (t.push (full f) src) s' := by
  obtain ⟨files, g⟩ := s
  have hdirect : emitCompressed compress files g src = .ok (emit files g src, g) := by
    obtain ⟨c, hstate⟩ := h.state
    change g = _ at hstate
    subst hstate
    exact emitCompressed_direct files src hsettings.direct
  obtain ⟨g', hcount, hrunning⟩ := h.count hsettings hfits.counter
  have hsplits := hrunning.splits hsettings
  cases hfull : full f (t.current ++ [src]) with
  | false =>
      refine ⟨(emit files g src, g'), ?_, ?_⟩
      · rw [hfull] at hsplits
        exact write_parts hdirect hcount hsplits
      · rw [Batches.push, hfull]
        exact hrunning
  | true =>
      have hcrosses := h.crosses hsettings hfull
      have hfree := fun hmode => h.free hsettings hfits hcrosses hmode
      have hnumber : g'.fBranchNum + 1 < 2 ^ 31 := by
        rw [hrunning.branchNum, ← h.branchNum]
        exact hfits.number hcrosses
      obtain ⟨g'', s', hnext, hopen, hnew⟩ := hrunning.next hsettings hnumber hfree
      refine ⟨s', ?_, ?_⟩
      · rw [hfull] at hsplits
        rw [write_parts hdirect hcount hsplits, if_pos rfl, hnext]
        change (openFile date _ [] >>= _) = _
        rw [hopen]
        rfl
      · rw [Batches.push, hfull]
        exact hnew

/-! ### A run -/

theorem Running.writeAll {ws : List Bytes} (hsettings : Settings date f names)
    (h : Running initial f names t s) (hfits : RunFits date compress s ws) :
    ∃ s', FileUtil.writeAll date compress s ws = .ok s' ∧
      Running initial f names (ws.foldl (Batches.push (full f)) t) s' := by
  induction ws generalizing s t with
  | nil => exact ⟨s, rfl, h⟩
  | cons w ws ih =>
      obtain ⟨s₁, hwrite, hrunning⟩ := h.write hsettings hfits.1
      obtain ⟨s₂, hrest, hdone⟩ := ih hrunning (hfits.2 s₁ hwrite)
      refine ⟨s₂, ?_, hdone⟩
      rw [FileUtil.writeAll, List.foldlM_cons, hwrite]
      exact hrest

theorem Running.run_lossless {ws : List Bytes} (hsettings : Settings date f names)
    (h : Running initial f names {} s) (hfits : RunFits date compress s ws) :
    ∃ s', FileUtil.writeAll date compress s ws = .ok s' ∧ Lossless ws s' := by
  obtain ⟨s', hwrite, hdone⟩ := h.writeAll hsettings hfits
  have hlossless := hdone.lossless hsettings ((Batches.sharp_empty (full f)).foldl ws)
  rw [Batches.items_foldl] at hlossless
  exact ⟨s', hwrite, hlossless⟩

end Userworks.E16.FileUtil
