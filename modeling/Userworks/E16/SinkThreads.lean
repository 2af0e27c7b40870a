import Userworks.E16.FileSink
import Userworks.E16.WorkerOrder
import Userworks.Lib.Results

/-!
The files of a sink with worker threads. They are the files that one thread would
have written, except that a split by raw size looks at sizes after compression.
-/
namespace Userworks.E16

namespace FileUtil

variable {date : Text} {compress : Text → Bytes → Bytes} {fCompress : Bytes → Bytes} {raw : Bool}
  {c : Option Text} {f : FileUtil} {files : Files}

/-- What the split policy counts where the messages come compressed: by raw size, it counts what
one thread counts by compressed size. -/
def counted (raw : Bool) : SplitOption → SplitOption
  | .compressedSize => if raw then .rawSize else .compressedSize
  | option => option

/-- The state behind worker threads for a state of one thread. -/
def threaded (raw : Bool) (c : Option Text) (f : FileUtil) : FileUtil :=
  { f with
    fCompressor := c
    fBranchRawSize := f.fBranchCompressedSize
    fSplit := f.fSplit.map (counted raw) }

/-- A state of one thread that writes what `fCompress` gives. -/
structure Compressing (compress : Text → Bytes → Bytes) (fCompress : Bytes → Bytes)
    (f : FileUtil) : Prop where
  ext : f.fExt ≠ [] ∧ f.fExt ≠ ".dat".toList
  format : ∃ format, f.fCompressor = some format ∧ compress format = fCompress
  sizes : f.fBranchRawSize.length = f.fBranchCompressedSize.length
  split : f.fSplit ≠ some .rawSize

/-! ### Opening -/

/-- Without a split policy the files have no branch number. -/
def numbered (f : FileUtil) : FileUtil :=
  if f.fSplit = none then { f with fBranchNum := -1 } else f

theorem chooseName_unnamed (hname : f.fName = []) (name : Text) :
    chooseName date f name = (generateFileName date (numbered f) name).map fun fileName =>
      { numbered f with fName := joinPath (numbered f).fPrefix fileName } := by
  rw [chooseName, if_pos hname]
  change (generateFileName date (numbered f) name >>= _) = _
  cases generateFileName date (numbered f) name with
  | error fault => rfl
  | ok fileName => rfl

theorem numbered_threaded (f : FileUtil) :
    numbered (threaded raw c f) = threaded raw c (numbered f) := by
  have hnone : (threaded raw c f).fSplit = none ↔ f.fSplit = none := Option.map_eq_none_iff
  unfold numbered
  by_cases hsplit : f.fSplit = none
  · rw [if_pos hsplit, if_pos (hnone.mpr hsplit)]
    rfl
  · rw [if_neg hsplit, if_neg (mt hnone.mp hsplit)]

theorem chooseName_threaded (hext : f.fExt ≠ []) (name : Text) :
    chooseName date (threaded raw c f) name =
      (chooseName date f name).map (threaded raw c) := by
  by_cases hname : f.fName = []
  · rw [chooseName_unnamed hname,
      chooseName_unnamed (show (threaded raw c f).fName = [] from hname), numbered_threaded]
    change (generateFileName date (numbered f) name).map _ = _
    cases generateFileName date (numbered f) name with
    | error fault => rfl
    | ok fileName => rfl
  · rw [chooseName, chooseName, if_neg hname,
      if_neg (show (threaded raw c f).fName ≠ [] from hname), if_neg hext,
      if_neg (show (threaded raw c f).fExt ≠ [] from hext)]
    rfl

theorem openStream_threaded (files : Files) (f : FileUtil) :
    openStream files (threaded raw c f) = (openStream files f).map id (threaded raw c) := by
  have hout : (threaded raw c f).fOut = f.fOut := rfl
  rw [openStream, openStream, hout]
  cases f.fOut with
  | closed => rfl
  | writing name => rfl
  | failed name => rfl

theorem pushBranch_threaded (f : FileUtil) :
    (threaded raw c f).pushBranch = threaded raw c f.pushBranch := by
  unfold pushBranch
  by_cases hnull : f.fName = "/dev/null".toList
  · rw [if_pos hnull, if_pos (show (threaded raw c f).fName = "/dev/null".toList from hnull)]
    rfl
  · rw [if_neg hnull, if_neg (show (threaded raw c f).fName ≠ "/dev/null".toList from hnull)]
    rfl

/-- Choosing a name leaves alone what compression looks at. -/
theorem Compressing.chooseName {g : FileUtil} {name : Text} (h : Compressing compress fCompress f)
    (hname : FileUtil.chooseName date f name = .ok g) : Compressing compress fCompress g := by
  have hnumbered : Compressing compress fCompress (numbered f) := by
    unfold numbered
    split
    · exact ⟨h.ext, h.format, h.sizes, h.split⟩
    · exact h
  by_cases hempty : f.fName = []
  · rw [chooseName_unnamed hempty] at hname
    cases hfile : generateFileName date (numbered f) name with
    | error fault =>
        rw [hfile] at hname
        cases hname
    | ok fileName =>
        rw [hfile] at hname
        cases hname
        exact ⟨hnumbered.ext, hnumbered.format, hnumbered.sizes, hnumbered.split⟩
  · rw [FileUtil.chooseName, if_neg hempty, if_neg h.ext.1] at hname
    cases hname
    exact h

theorem openFile_threaded (hext : f.fExt ≠ []) (name : Text) :
    openFile date (files, threaded raw c f) name =
      (openFile date (files, f) name).map fun (opened, files, f) =>
        (opened, files, threaded raw c f) := by
  unfold openFile
  rw [chooseName_threaded hext]
  cases hname : chooseName date f name with
  | error fault => rfl
  | ok g =>
      change (if refuses files g then _ else _) = Except.map _ (if refuses files g then _ else _)
      split
      · rfl
      · change Except.ok (true, (openStream files (threaded raw c g)).1,
          (openStream files (threaded raw c g)).2.pushBranch) = _
        rw [openStream_threaded, Prod.map_snd, pushBranch_threaded]
        rfl

theorem Compressing.openStream (h : Compressing compress fCompress f) (files : Files) :
    Compressing compress fCompress (FileUtil.openStream files f).2 := by
  unfold FileUtil.openStream
  split
  · exact ⟨h.ext, h.format, h.sizes, h.split⟩
  · exact ⟨h.ext, h.format, h.sizes, h.split⟩
  · exact ⟨h.ext, h.format, h.sizes, h.split⟩

theorem Compressing.pushBranch (h : Compressing compress fCompress f) :
    Compressing compress fCompress f.pushBranch := by
  have hsizes : (f.fBranchRawSize ++ [0]).length = (f.fBranchCompressedSize ++ [0]).length := by
    rw [List.length_append, List.length_append, h.sizes]
  unfold FileUtil.pushBranch
  split
  · exact ⟨h.ext, h.format, hsizes, fun hsplit => by cases hsplit⟩
  · exact ⟨h.ext, h.format, hsizes, h.split⟩

theorem Compressing.openFile {s : Bool × Files × FileUtil} {name : Text}
    (h : Compressing compress fCompress f)
    (hopen : FileUtil.openFile date (files, f) name = .ok s) :
    Compressing compress fCompress s.2.2 := by
  obtain ⟨g, hname, hrest⟩ := ok_of_bind hopen
  change (if refuses files g then Except.ok (false, files, g) else
    Except.ok (true, (FileUtil.openStream files g).1,
      (FileUtil.openStream files g).2.pushBranch)) = _ at hrest
  split at hrest
  · cases hrest
    exact h.chooseName hname
  · rw [← Except.ok.inj hrest]
    exact ((h.chooseName hname).openStream files).pushBranch

/-! ### Writing -/

/-- The first half of `Write`. -/
def stored (compress : Text → Bytes → Bytes) (s : Files × FileUtil) (src : Bytes) :
    Except FileFault (Files × FileUtil) := do
  let (files, f) ← emitCompressed compress s.1 s.2 src
  let f ← count f src.length
  .ok (files, f)

/-- The second half of `Write`. -/
def cut (date : Text) (s : Files × FileUtil) : Except FileFault (Files × FileUtil) := do
  if ← splits s.2 then
    let f ← nextBranch s.2.close
    let (_, s) ← FileUtil.openFile date (s.1, f) []
    .ok s
  else .ok s

theorem write_eq (s : Files × FileUtil) (src : Bytes) :
    write date compress s src = stored compress s src >>= cut date := by
  unfold write stored
  cases emitCompressed compress s.1 s.2 src with
  | error fault => rfl
  | ok stored =>
      change (count stored.2 src.length >>= _) = (count stored.2 src.length >>= _) >>= _
      cases count stored.2 src.length with
      | error fault => rfl
      | ok g => rfl

/-- Behind the threads, what is stored is counted as compressed and as raw. -/
theorem Compressing.stored (h : Compressing compress fCompress f)
    (hplain : ∀ src, compress ".dat".toList src = src) (files : Files) (src : Bytes) :
    FileUtil.stored compress (files, threaded raw (some ".dat".toList) f) (fCompress src) =
      (FileUtil.stored compress (files, f) src).map fun s =>
        (s.1, threaded raw (some ".dat".toList) s.2) := by
  obtain ⟨format, hformat, rfl⟩ := h.format
  have hsizes := h.sizes
  simp only [FileUtil.stored, emitCompressed, FileUtil.count, threaded, hformat, hplain,
    if_neg (not_or.mpr h.ext)]
  cases List.eq_nil_or_concat f.fBranchCompressedSize with
  | inl hempty =>
      rw [hempty]
      rfl
  | inr hconcat =>
      obtain ⟨sizes, size, hcompressed⟩ := hconcat
      cases List.eq_nil_or_concat f.fBranchRawSize with
      | inl hempty =>
          rw [hempty, hcompressed] at hsizes
          simp at hsizes
      | inr hconcat =>
          obtain ⟨raws, raw, hraw⟩ := hconcat
          rw [hcompressed, hraw, List.concat_eq_append, List.concat_eq_append]
          simp only [addBack_concat, bind, Except.bind]
          cases addBack f.fBranchNumIteration 1 with
          | error fault => rfl
          | ok iterations => rfl

theorem addBack_length {v w : List Nat} {n : Nat} (h : addBack v n = .ok w) :
    w.length = v.length := by
  cases List.eq_nil_or_concat v with
  | inl hempty =>
      rw [hempty] at h
      cases h
  | inr hconcat =>
      obtain ⟨front, last, rfl⟩ := hconcat
      rw [List.concat_eq_append, addBack_concat] at h
      cases h
      simp

theorem Compressing.count {g : FileUtil} {length : Nat} (h : Compressing compress fCompress f)
    (hcount : FileUtil.count f length = .ok g) : Compressing compress fCompress g := by
  obtain ⟨raws, hraws, hrest⟩ := ok_of_bind hcount
  obtain ⟨iterations, -, hsame⟩ := ok_of_bind hrest
  cases hsame
  exact ⟨h.ext, h.format, (addBack_length hraws).trans h.sizes, h.split⟩

theorem Compressing.kept {s : Files × FileUtil} (h : Compressing compress fCompress f) {src : Bytes}
    (hstored : FileUtil.stored compress (files, f) src = .ok s) :
    Compressing compress fCompress s.2 := by
  obtain ⟨format, hformat, hsame⟩ := h.format
  obtain ⟨s', hemit, hrest⟩ := ok_of_bind hstored
  obtain ⟨g, hcount, hdone⟩ := ok_of_bind hrest
  simp only [emitCompressed, hformat, if_neg (not_or.mpr h.ext)] at hemit
  obtain ⟨sizes, hsizes, hkept⟩ := ok_of_bind hemit
  cases hkept
  cases hdone
  have hemitted : Compressing compress fCompress
      { f with fCompressor := some format, fBranchCompressedSize := sizes } :=
    ⟨h.ext, ⟨format, rfl, hsame⟩, h.sizes.trans (addBack_length hsizes).symm, h.split⟩
  exact hemitted.count hcount

theorem splits_threaded (hsplit : f.fSplit ≠ some .rawSize) :
    splits (threaded raw c f) = splits f := by
  unfold splits threaded
  cases hoption : f.fSplit with
  | none => rfl
  | some option =>
      cases option with
      | rawSize => exact absurd hoption hsplit
      | numIteration => rfl
      | compressedSize =>
          cases raw with
          | false => rfl
          | true => rfl

theorem close_threaded (f : FileUtil) :
    (threaded raw c f).close = threaded raw c f.close := by
  unfold close
  by_cases hclosed : f.fOut = .closed
  · rw [if_pos hclosed, if_pos (show (threaded raw c f).fOut = .closed from hclosed)]
  · rw [if_neg hclosed, if_neg (show (threaded raw c f).fOut ≠ .closed from hclosed)]
    rfl

theorem nextBranch_threaded (f : FileUtil) :
    nextBranch (threaded raw c f) = (nextBranch f).map (threaded raw c) := by
  unfold nextBranch
  change (if f.fBranchNum < 0 then _ else if f.fBranchNum + 1 < 2 ^ 31 then _ else _) = _
  split
  · rfl
  · split
    · rfl
    · rfl

theorem Compressing.nextBranch {g : FileUtil} (h : Compressing compress fCompress f)
    (hnext : FileUtil.nextBranch f.close = .ok g) : Compressing compress fCompress g := by
  have hclose : Compressing compress fCompress f.close := by
    unfold FileUtil.close
    split
    · exact h
    · exact ⟨h.ext, h.format, h.sizes, h.split⟩
  unfold FileUtil.nextBranch at hnext
  split at hnext
  · cases hnext
    exact hclose
  · split at hnext
    · cases hnext
      exact ⟨hclose.ext, hclose.format, hclose.sizes, hclose.split⟩
    · cases hnext

theorem Compressing.cut_threaded (h : Compressing compress fCompress f) (files : Files) :
    cut date (files, threaded raw c f) =
      (cut date (files, f)).map fun s => (s.1, threaded raw c s.2) := by
  unfold cut
  rw [splits_threaded h.split]
  cases splits f with
  | error fault => rfl
  | ok full =>
      cases full with
      | false => rfl
      | true =>
          change (FileUtil.nextBranch (threaded raw c f).close >>= _) =
            Except.map _ (FileUtil.nextBranch f.close >>= _)
          rw [close_threaded, nextBranch_threaded]
          cases hnext : FileUtil.nextBranch f.close with
          | error fault => rfl
          | ok g =>
              change (FileUtil.openFile date (files, threaded raw c g) [] >>= _) =
                Except.map _ (FileUtil.openFile date (files, g) [] >>= _)
              rw [openFile_threaded (h.nextBranch hnext).ext.1]
              cases FileUtil.openFile date (files, g) [] with
              | error fault => rfl
              | ok opened => rfl

theorem Compressing.cut {s : Files × FileUtil} (h : Compressing compress fCompress f)
    (hcut : FileUtil.cut date (files, f) = .ok s) : Compressing compress fCompress s.2 := by
  obtain ⟨full, -, hrest⟩ := ok_of_bind hcut
  cases full with
  | false =>
      cases hrest
      exact h
  | true =>
      obtain ⟨g, hnext, hopened⟩ := ok_of_bind hrest
      obtain ⟨opened, hopen, hdone⟩ := ok_of_bind hopened
      cases hdone
      exact (h.nextBranch hnext).openFile hopen

/-- A write of what was compressed before, and a write that compresses. -/
theorem Compressing.write_threaded (h : Compressing compress fCompress f)
    (hplain : ∀ src, compress ".dat".toList src = src) (files : Files) (src : Bytes) :
    write date compress (files, threaded raw (some ".dat".toList) f) (fCompress src) =
      (write date compress (files, f) src).map fun s =>
        (s.1, threaded raw (some ".dat".toList) s.2) := by
  rw [write_eq, write_eq, h.stored hplain]
  cases hstored : FileUtil.stored compress (files, f) src with
  | error fault => rfl
  | ok s => exact (h.kept hstored).cut_threaded s.1

theorem Compressing.write {s : Files × FileUtil} {src : Bytes}
    (h : Compressing compress fCompress f)
    (hwrite : FileUtil.write date compress (files, f) src = .ok s) :
    Compressing compress fCompress s.2 := by
  rw [write_eq] at hwrite
  obtain ⟨s', hstored, hcut⟩ := ok_of_bind hwrite
  exact (h.kept hstored).cut hcut

theorem Compressing.writeAll_threaded (h : Compressing compress fCompress f)
    (hplain : ∀ src, compress ".dat".toList src = src) (files : Files) (ws : List Bytes) :
    writeAll date compress (files, threaded raw (some ".dat".toList) f) (ws.map fCompress) =
      (writeAll date compress (files, f) ws).map fun s =>
        (s.1, threaded raw (some ".dat".toList) s.2) := by
  induction ws generalizing files f with
  | nil => rfl
  | cons w ws ih =>
      rw [writeAll, writeAll, List.map_cons, List.foldlM_cons, List.foldlM_cons,
        h.write_threaded hplain]
      cases hwrite : FileUtil.write date compress (files, f) w with
      | error fault => rfl
      | ok s => exact ih (h.write hwrite) s.1

theorem Compressing.writeAll {s : Files × FileUtil} {ws : List Bytes}
    (h : Compressing compress fCompress f)
    (hwrite : FileUtil.writeAll date compress (files, f) ws = .ok s) :
    Compressing compress fCompress s.2 := by
  induction ws generalizing files f with
  | nil =>
      cases hwrite
      exact h
  | cons w ws ih =>
      rw [FileUtil.writeAll, List.foldlM_cons] at hwrite
      obtain ⟨s', hfirst, hrest⟩ := ok_of_bind hwrite
      exact ih (h.write hfirst) hrest

end FileUtil

end Userworks.E16
