import Userworks.E16.SinkThreads
import Userworks.E16.WorkerProgress
import Mathlib.Algebra.GroupWithZero.Nat

/-!
Runs of the file sink. With worker threads it writes the files that it writes with
one thread, and it stops where the number of writes meets the maximum.
-/
namespace Userworks.E16.FileSink

open FileUtil TaskProcessor

variable {date : Text} {compress : Text → Bytes → Bytes} {fCompress : Bytes → Bytes} {raw : Bool}
  {sink : FileSink} {msgParts : FairMQParts}

/-! ### Messages -/

/-- The state with worker threads for a state of one thread. -/
def behind (raw : Bool) (sink : FileSink) : FileSink :=
  { sink with fWorker := true, fFile := threaded raw (some ".dat".toList) sink.fFile }

theorem writes_compressed (merge : Bool) (msgParts : FairMQParts) :
    writes merge (compressMultipartData fCompress merge msgParts) =
      (writes merge msgParts).map fCompress := by
  cases merge with
  | false => rfl
  | true =>
      change [[fCompress msgParts.flatten].flatten] = [fCompress msgParts.flatten]
      rw [List.flatten_singleton]

theorem writeMultipartData_behind (h : Compressing compress fCompress sink.fFile)
    (hplain : ∀ src, compress ".dat".toList src = src) (msgParts : FairMQParts) :
    writeMultipartData date compress (behind raw sink)
        (compressMultipartData fCompress sink.fMergeMessage msgParts) =
      (writeMultipartData date compress sink msgParts).map (behind raw) := by
  unfold writeMultipartData
  change (if sink.fStopRequested then Except.ok (behind raw sink) else _) = _
  by_cases hstop : sink.fStopRequested
  · rw [if_pos hstop, if_pos hstop]
    rfl
  · rw [if_neg hstop, if_neg hstop]
    change (FileUtil.writeAll date compress (sink.files, threaded raw _ sink.fFile)
      (writes sink.fMergeMessage _) >>= _) =
      (FileUtil.writeAll date compress (sink.files, sink.fFile)
        (writes sink.fMergeMessage msgParts) >>= _).map _
    rw [writes_compressed, h.writeAll_threaded hplain]
    cases FileUtil.writeAll date compress (sink.files, sink.fFile)
        (writes sink.fMergeMessage msgParts) with
    | error fault => rfl
    | ok s =>
        have hlength : (writes sink.fMergeMessage
            (compressMultipartData fCompress sink.fMergeMessage msgParts)).length =
              (writes sink.fMergeMessage msgParts).length := by
          rw [writes_compressed, List.length_map]
        simp only [bind, Except.bind, Except.map, behind, hlength]

theorem writeMultipartData_keeps {sink' : FileSink}
    (h : Compressing compress fCompress sink.fFile)
    (hwrite : writeMultipartData date compress sink msgParts = .ok sink') :
    Compressing compress fCompress sink'.fFile ∧ sink'.fMergeMessage = sink.fMergeMessage := by
  unfold writeMultipartData at hwrite
  split at hwrite
  · cases hwrite
    exact ⟨h, rfl⟩
  · obtain ⟨s, hall, hdone⟩ := ok_of_bind hwrite
    cases hdone
    exact ⟨h.writeAll hall, rfl⟩

/-- The messages of a run, written behind worker threads. -/
theorem foldlM_behind (h : Compressing compress fCompress sink.fFile)
    (hplain : ∀ src, compress ".dat".toList src = src) (msgs : List FairMQParts) :
    (msgs.map (compressMultipartData fCompress sink.fMergeMessage)).foldlM
        (writeMultipartData date compress) (behind raw sink) =
      (msgs.foldlM (writeMultipartData date compress) sink).map (behind raw) := by
  induction msgs generalizing sink with
  | nil => rfl
  | cons msg msgs ih =>
      rw [List.map_cons, List.foldlM_cons, List.foldlM_cons, writeMultipartData_behind h hplain]
      cases hwrite : writeMultipartData date compress sink msg with
      | error fault => rfl
      | ok sink' =>
          obtain ⟨hkept, hmerge⟩ := writeMultipartData_keeps h hwrite
          rw [← hmerge]
          exact ih hkept

/-! ### The start of a run -/

def splitsRaw (o : Options) : Bool := o.split.map Char.toLower = "raw-size".toList

/-- The options with which one thread counts what the merger counts. -/
def oneThread (o : Options) : Options :=
  if splitsRaw o then { o with split := "compressed-size".toList } else o

/-- The policy that `SetSplit` takes from an option. -/
def splitOf (option : Text) : Option SplitOption :=
  if option.map Char.toLower = "raw-size".toList then some .rawSize
  else if option.map Char.toLower = "compressed-size".toList then some .compressedSize
  else if option.map Char.toLower = "num-iteration".toList then some .numIteration
  else none

theorem setSplit_eq (f : FileUtil) (option : Text) :
    f.setSplit option = { f with fSplit := splitOf option } := by
  simp only [setSplit, splitOf]
  split_ifs
  · rfl
  · rfl
  · rfl
  · rfl

theorem splitOf_oneThread (o : Options) :
    splitOf o.split = (splitOf (oneThread o).split).map (counted (splitsRaw o)) := by
  unfold oneThread
  cases hraw : splitsRaw o with
  | true =>
      have hsplit : splitOf o.split = some .rawSize := if_pos (of_decide_eq_true hraw)
      rw [hsplit, if_pos rfl]
      rfl
  | false =>
      have hcounted : counted false = id := by
        funext option
        cases option with
        | _ => rfl
      rw [if_neg Bool.false_ne_true, hcounted, Option.map_id]
      rfl

/-- What `Init` and `SetExtension` leave to the counters and to the compressor. -/
structure Fresh (f : FileUtil) : Prop where
  raw : f.fBranchRawSize = []
  compressed : f.fBranchCompressedSize = []
  compressor : f.fExt ≠ [] → f.fCompressor = some f.fExt

theorem Fresh.setExtension {f : FileUtil} (h : Fresh f) (hnone : f.fCompressor = none)
    (ext : Text) : Fresh (f.setExtension ext) := by
  rw [FileUtil.setExtension]
  split
  · refine ⟨h.raw, h.compressed, ?_⟩
    intro _
    rw [hnone]
    rfl
  · exact h

theorem setOpenmode_split (f : FileUtil) (split : Option SplitOption) (mode : Text) :
    setOpenmode { f with fSplit := split } mode = { f.setOpenmode mode with fSplit := split } := by
  simp only [setOpenmode]
  split_ifs
  · rfl
  · rfl

theorem init_split (o : Options) (option : Text) (f : FileUtil) :
    FileUtil.init { o with split := option } f =
      { FileUtil.init o f with fSplit := splitOf option } := by
  simp only [FileUtil.init, setSplit_eq, setOpenmode_split]

theorem fresh_init (o : Options) (m : Nat) : Fresh (FileUtil.init o { fMaxBranchSize := m }) := by
  have hmode : ∀ f : FileUtil, Fresh f → ∀ mode, Fresh (f.setOpenmode mode) := by
    intro f hf mode
    rw [setOpenmode]
    split
    · exact ⟨hf.raw, hf.compressed, hf.compressor⟩
    · exact hf
  have hstart : Fresh { fMaxBranchSize := m, fRun := o.runNumber.getD (o.run.getD (-1)) } :=
    ⟨rfl, rfl, fun hext => absurd rfl hext⟩
  simp only [FileUtil.init, setSplit_eq]
  refine hmode _ ?_ _
  cases o.path with
  | some path =>
      cases o.maxSize with
      | none => exact ⟨rfl, rfl, fun hext => absurd rfl hext⟩
      | some n => exact ⟨rfl, rfl, fun hext => absurd rfl hext⟩
  | none =>
      cases o.ext with
      | none =>
          cases o.maxSize with
          | none => exact ⟨rfl, rfl, fun hext => absurd rfl hext⟩
          | some n => exact ⟨rfl, rfl, fun hext => absurd rfl hext⟩
      | some ext =>
          have hnamed := hstart.setExtension rfl ext
          cases o.maxSize with
          | none => exact ⟨hnamed.raw, hnamed.compressed, hnamed.compressor⟩
          | some n => exact ⟨hnamed.raw, hnamed.compressed, hnamed.compressor⟩

/-- `Init` with the options for one thread, seen behind worker threads. -/
theorem init_oneThread (o : Options) (m : Nat) :
    FileUtil.init o { fMaxBranchSize := m } =
      threaded (splitsRaw o) (FileUtil.init o { fMaxBranchSize := m }).fCompressor
        (FileUtil.init (oneThread o) { fMaxBranchSize := m }) := by
  have hfresh := fresh_init o m
  have hself : ∀ option, FileUtil.init { o with split := option } { fMaxBranchSize := m } =
      { FileUtil.init o { fMaxBranchSize := m } with fSplit := splitOf option } :=
    fun option => init_split o option _
  have hone : FileUtil.init (oneThread o) { fMaxBranchSize := m } =
      { FileUtil.init o { fMaxBranchSize := m } with fSplit := splitOf (oneThread o).split } := by
    rw [← hself]
    unfold oneThread
    split
    · rfl
    · rfl
  have hsplit : (FileUtil.init o { fMaxBranchSize := m }).fSplit = splitOf o.split := by
    have hsame := hself o.split
    rw [hsame]
  rw [hone, threaded]
  change _ = { FileUtil.init o { fMaxBranchSize := m } with
    fBranchRawSize := (FileUtil.init o { fMaxBranchSize := m }).fBranchCompressedSize
    fSplit := (splitOf (oneThread o).split).map (counted (splitsRaw o)) }
  rw [← splitOf_oneThread, ← hsplit]
  generalize FileUtil.init o { fMaxBranchSize := m } = f at hfresh
  have hsizes : f.fBranchCompressedSize = f.fBranchRawSize :=
    hfresh.compressed.trans hfresh.raw.symm
  rw [hsizes]

theorem fExt_oneThread (o : Options) (m : Nat) :
    (FileUtil.init (oneThread o) { fMaxBranchSize := m }).fExt =
      (FileUtil.init o { fMaxBranchSize := m }).fExt :=
  (congrArg FileUtil.fExt (init_oneThread o m)).symm

/-- Worker threads are started for a file type that is compressed. -/
theorem compresses_ext {ext : Text} (h : compresses ext = true) :
    ext ≠ [] ∧ ext ≠ ".dat".toList := by
  refine ⟨?_, ?_⟩
  · rintro rfl
    exact absurd h (by decide)
  · rintro rfl
    exact absurd h (by decide)

/-- The merger starts where one thread starts. -/
theorem preRun_behind (date : Text) {fNThreads : Nat} {o : Options} {m fMaxIteration : Nat}
    {merge : Bool} {files : Files} (run : Int)
    (hthreads : (initTask o m fMaxIteration merge fNThreads files).fWorker = true) :
    preRun date run (initTask o m fMaxIteration merge fNThreads files) =
      (preRun date run (initTask (oneThread o) m fMaxIteration merge 1 files)).map
        (behind (splitsRaw o)) := by
  have hcompresses : compresses (FileUtil.init o { fMaxBranchSize := m }).fExt = true :=
    (Bool.and_eq_true _ _ ▸ hthreads).2
  have hext : (FileUtil.init (oneThread o) { fMaxBranchSize := m }).fExt ≠ [] := by
    rw [fExt_oneThread]
    exact (compresses_ext hcompresses).1
  have hfile : clearBranch { FileUtil.init o { fMaxBranchSize := m } with fRun := run } =
      threaded (splitsRaw o) (FileUtil.init o { fMaxBranchSize := m }).fCompressor
        (clearBranch { FileUtil.init (oneThread o) { fMaxBranchSize := m } with fRun := run }) := by
    conv_lhs => rw [init_oneThread]
    rfl
  unfold preRun
  rw [hthreads]
  change (FileUtil.openFile date (files,
      clearBranch { FileUtil.init o { fMaxBranchSize := m } with fRun := run }) [] >>= _) =
    (FileUtil.openFile date (files,
      clearBranch { FileUtil.init (oneThread o) { fMaxBranchSize := m } with fRun := run }) []
        >>= _).map _
  have hext' : (clearBranch
      { FileUtil.init (oneThread o) { fMaxBranchSize := m } with fRun := run }).fExt ≠ [] := hext
  rw [hfile, openFile_threaded hext']
  cases FileUtil.openFile date (files,
      clearBranch { FileUtil.init (oneThread o) { fMaxBranchSize := m } with fRun := run }) [] with
  | error fault => rfl
  | ok opened => rfl

theorem splitOf_ne_raw (o : Options) : splitOf (oneThread o).split ≠ some .rawSize := by
  unfold oneThread
  cases hraw : splitsRaw o with
  | true =>
      rw [if_pos rfl]
      change splitOf "compressed-size".toList ≠ some .rawSize
      decide
  | false =>
      rw [if_neg Bool.false_ne_true, splitOf, if_neg (of_decide_eq_false hraw)]
      split_ifs
      · decide
      · decide
      · decide

/-- One thread starts with a file that compresses. -/
theorem preRun_compressing {date : Text} {compress : Text → Bytes → Bytes}
    {fCompress : Bytes → Bytes} {o : Options} {m fMaxIteration : Nat} {merge : Bool} {files : Files}
    {run : Int} {sink : FileSink}
    (hcompresses : compresses (FileUtil.init o { fMaxBranchSize := m }).fExt = true)
    (hsame : compress (FileUtil.init o { fMaxBranchSize := m }).fExt = fCompress)
    (hstart : preRun date run (initTask (oneThread o) m fMaxIteration merge 1 files) = .ok sink) :
    Compressing compress fCompress sink.fFile ∧ sink.fMergeMessage = merge := by
  have hcleared : Compressing compress fCompress
      (clearBranch { FileUtil.init (oneThread o) { fMaxBranchSize := m } with fRun := run }) := by
    refine ⟨?_, ⟨_, ?_, hsame⟩, rfl, ?_⟩
    · exact (fExt_oneThread o m).symm ▸ compresses_ext hcompresses
    · have hfresh := fresh_init (oneThread o) m
      rw [← fExt_oneThread]
      exact hfresh.compressor ((fExt_oneThread o m).symm ▸ (compresses_ext hcompresses).1)
    · have hsplit := congrArg FileUtil.fSplit
        (init_split (oneThread o) (oneThread o).split { fMaxBranchSize := m })
      change (FileUtil.init (oneThread o) { fMaxBranchSize := m }).fSplit = _ at hsplit
      change (FileUtil.init (oneThread o) { fMaxBranchSize := m }).fSplit ≠ _
      rw [hsplit]
      exact splitOf_ne_raw o
  obtain ⟨opened, hopen, hdone⟩ := ok_of_bind hstart
  cases hdone
  exact ⟨hcleared.openFile hopen, rfl⟩

/-- With worker threads the sink writes the files that it writes with one thread, as long as no
worker fails to send; a split by raw size goes by the sizes after compression. The size
of the compressor's buffer is taken to make no difference to the bytes (`hsame`). -/
theorem threads_write_same_files (date : Text) (compress : Text → Bytes → Bytes)
    (fCompress : Bytes → Bytes) (hplain : ∀ src, compress ".dat".toList src = src)
    {fNThreads : Nat} {o : Options} {m fMaxIteration : Nat} {merge : Bool} {files : Files}
    (run : Int) (hthreads : (initTask o m fMaxIteration merge fNThreads files).fWorker = true)
    (hsame : compress (FileUtil.init o { fMaxBranchSize := m }).fExt = fCompress)
    {sink : FileSink}
    (hstart : preRun date run (initTask (oneThread o) m fMaxIteration merge 1 files) = .ok sink) :
    preRun date run (initTask o m fMaxIteration merge fNThreads files) =
        .ok (behind (splitsRaw o) sink) ∧
      ∀ os s, Reachable (handlers date compress fCompress merge) fNThreads
          (behind (splitsRaw o) sink) os s → NoneLost os →
        (handled os).length ≤ (dispatched os).length ∧
          s.device = (((dispatched os).take (handled os).length).foldlM
            (writeMultipartData date compress) sink).map (behind (splitsRaw o)) := by
  have hcompresses : compresses (FileUtil.init o { fMaxBranchSize := m }).fExt = true :=
    (Bool.and_eq_true _ _ ▸ hthreads).2
  obtain ⟨hcompressing, hmerge⟩ := preRun_compressing hcompresses hsame hstart
  refine ⟨?_, ?_⟩
  · rw [preRun_behind date run hthreads, hstart]
    rfl
  · intro os s hreachable hnone
    have hprefix := handled_isPrefix hreachable hnone
    have hdevice := (accounted hreachable).device
    have hlength := hprefix.length_le
    rw [List.length_map] at hlength
    refine ⟨hlength, ?_⟩
    rw [hdevice, List.prefix_iff_eq_take.mp hprefix, ← List.map_take, List.length_map,
      List.length_take_of_le hlength]
    subst hmerge
    exact foldlM_behind hcompressing hplain _

/-- `.gz` files of run 1, split by raw size. -/
def gzipOptions : Options where
  runNumber := some 1
  ext := some ".gz".toList
  runNumberFormat := "run{:06d}".toList
  branchNumberFormat := "_{:03d}".toList
  maxSize := some 1
  split := "raw-size".toList
  openmode := "recreate".toList

/-- What `gzip` makes of no bytes at all. -/
def gzipEmpty (ext : Text) (src : Bytes) : Bytes :=
  if ext = ".gz".toList ∧ src = [] then
    [0x1f, 0x8b, 8, 0, 0, 0, 0, 0, 0, 255, 3, 0, 0, 0, 0, 0, 0, 0, 0, 0]
  else src

/-- Four threads write the empty messages that they are given as one thread does. -/
theorem threads_write_empty_messages : ∃ sink,
    preRun [] 1 (initTask (oneThread gzipOptions) 0 0 true 1 fun _ => none) = .ok sink ∧
    ∀ os s, Reachable (handlers [] gzipEmpty (gzipEmpty ".gz".toList) true) 4
        (behind true sink) os s → NoneLost os →
      (handled os).length ≤ (dispatched os).length ∧
        s.device = (((dispatched os).take (handled os).length).foldlM
          (writeMultipartData [] gzipEmpty) sink).map (behind true) := by
  have hstart : ∃ sink, preRun [] 1
      (initTask (oneThread gzipOptions) 0 0 true 1 fun _ => none) = .ok sink := ⟨_, rfl⟩
  obtain ⟨sink, hstart⟩ := hstart
  have hplain : ∀ src, gzipEmpty ".dat".toList src = src := fun src => if_neg (by simp)
  exact ⟨sink, hstart, (@threads_write_same_files [] gzipEmpty _ hplain 4 gzipOptions 0 0 true
    (fun _ => none) 1 rfl rfl sink hstart).2⟩

/-! ### A sink that merges and does not compress -/

theorem init_runNumber (o : Options) (run : Int) (f : FileUtil) :
    FileUtil.init { o with runNumber := some run } f =
      { FileUtil.init o f with fRun := run } := by
  have hmode : ∀ (f : FileUtil) mode,
      setOpenmode { f with fRun := run } mode = { f.setOpenmode mode with fRun := run } := by
    intro f mode
    simp only [setOpenmode]
    split_ifs
    · rfl
    · rfl
  simp only [FileUtil.init, setSplit_eq]
  rw [← hmode]
  cases o.path with
  | some path =>
      cases o.maxSize with
      | none => rfl
      | some n => rfl
  | none =>
      cases o.ext with
      | none =>
          cases o.maxSize with
          | none => rfl
          | some n => rfl
      | some ext =>
          simp only [setExtension]
          split_ifs
          · cases o.maxSize with
            | none => rfl
            | some n => rfl
          · cases o.maxSize with
            | none => rfl
            | some n => rfl

/-- The device writes such files itself, however many threads it has. -/
theorem preRun_direct {date : Text} {o : Options} {m fMaxIteration fNThreads : Nat} {merge : Bool}
    {files : Files} {run : Int} {answer : Bool} {opened : Files × FileUtil}
    (hext : (FileUtil.init o { fMaxBranchSize := m }).fExt = [] ∨
      (FileUtil.init o { fMaxBranchSize := m }).fExt = ".dat".toList)
    (hopen : FileUtil.openFile date (files, clearBranch
      (FileUtil.init { o with runNumber := some run } { fMaxBranchSize := m })) [] =
        .ok (answer, opened)) :
    preRun date run (initTask o m fMaxIteration merge fNThreads files) =
      .ok {
        fMaxIteration := fMaxIteration
        fMergeMessage := merge
        fWorker := false
        files := opened.1
        fFile := opened.2 } := by
  have hworker : (initTask o m fMaxIteration merge fNThreads files).fWorker = false := by
    change (decide (1 < fNThreads) && compresses _) = false
    rw [Bool.and_eq_false_iff]
    refine Or.inr ?_
    cases hext with
    | inl hnone => rw [hnone]; decide
    | inr hdat => rw [hdat]; decide
  rw [init_runNumber] at hopen
  unfold preRun
  rw [hworker]
  change (FileUtil.openFile date (files,
    clearBranch { FileUtil.init o { fMaxBranchSize := m } with fRun := run }) [] >>= _) = _
  rw [hopen]
  rfl

/-- The messages of a run are its writes. -/
theorem foldlM_merged {msgs : List FairMQParts} {s : Files × FileUtil}
    (hmerge : sink.fMergeMessage = true) (hgo : sink.fStopRequested = false ∨ msgs = [])
    (hnumber : sink.fNWrite + msgs.length < 2 ^ 64)
    (hroom : sink.fMaxIteration = 0 ∨ sink.fNWrite + msgs.length ≤ sink.fMaxIteration)
    (hwrite : FileUtil.writeAll date compress (sink.files, sink.fFile)
      (msgs.map List.flatten) = .ok s) :
    ∃ sink', msgs.foldlM (writeMultipartData date compress) sink = .ok sink' ∧
      sink'.files = s.1 ∧ sink'.fFile = s.2 := by
  induction msgs generalizing sink with
  | nil =>
      cases hwrite
      exact ⟨sink, rfl, rfl, rfl⟩
  | cons msg msgs ih =>
      have hrunning := hgo.resolve_right (List.cons_ne_nil msg msgs)
      rw [List.length_cons] at hnumber hroom
      rw [List.map_cons, FileUtil.writeAll, List.foldlM_cons] at hwrite
      obtain ⟨s₁, hfirst, hrest⟩ := ok_of_bind hwrite
      have hone : FileUtil.writeAll date compress (sink.files, sink.fFile) [msg.flatten] =
          .ok s₁ := by
        rw [FileUtil.writeAll, List.foldlM_cons, hfirst]
        rfl
      have hmod : (sink.fNWrite + 1) % 2 ^ 64 = sink.fNWrite + 1 := Nat.mod_eq_of_lt (by omega)
      have hcall : writeMultipartData date compress sink msg = .ok { sink with
          files := s₁.1
          fFile := s₁.2
          fNWrite := sink.fNWrite + 1
          fStopRequested :=
            decide (0 < sink.fMaxIteration ∧ sink.fNWrite + 1 = sink.fMaxIteration) } := by
        rw [writeMultipartData, if_neg (by rw [hrunning]; decide), hmerge, writes, if_pos rfl]
        dsimp only
        rw [hone, List.length_singleton, hmod]
        rfl
      have hgo' : decide (0 < sink.fMaxIteration ∧ sink.fNWrite + 1 = sink.fMaxIteration) = false ∨
          msgs = [] := by
        by_cases hlast : msgs = []
        · exact Or.inr hlast
        · have hmore := List.length_pos_iff.mpr hlast
          refine Or.inl (decide_eq_false ?_)
          rintro ⟨hpos, hmax⟩
          omega
      obtain ⟨sink', hwritten, hfiles⟩ := @ih { sink with
        files := s₁.1
        fFile := s₁.2
        fNWrite := sink.fNWrite + 1
        fStopRequested :=
          decide (0 < sink.fMaxIteration ∧ sink.fNWrite + 1 = sink.fMaxIteration) }
        hmerge hgo' (by dsimp only; omega) (by dsimp only; omega) hrest
      refine ⟨sink', ?_, hfiles⟩
      rw [List.foldlM_cons, hcall]
      exact hwritten

/-! ### The stop -/

/-- The number of writes that messages take. -/
def written (merge : Bool) (msgs : List FairMQParts) : Nat :=
  (msgs.map fun msgParts => (writes merge msgParts).length).sum

/-- The number of writes meets the maximum. -/
def Reached (sink : FileSink) (msgs : List FairMQParts) : Prop :=
  0 < sink.fMaxIteration ∧ written sink.fMergeMessage msgs % 2 ^ 64 = sink.fMaxIteration

theorem written_concat (merge : Bool) (msgs : List FairMQParts) (msg : FairMQParts) :
    written merge (msgs ++ [msg]) = written merge msgs + (writes merge msg).length := by
  simp [written]

theorem written_merged (msgs : List FairMQParts) : written true msgs = msgs.length := by
  induction msgs with
  | nil => rfl
  | cons msg msgs ih =>
      change 1 + written true msgs = msgs.length + 1
      omega

/-- The state of a sink that wrote `msgs`. -/
structure Counted (start : FileSink) (msgs : List FairMQParts) (sink : FileSink) : Prop where
  maximum : sink.fMaxIteration = start.fMaxIteration
  merge : sink.fMergeMessage = start.fMergeMessage
  number : sink.fNWrite = written start.fMergeMessage msgs % 2 ^ 64
  stop : sink.fStopRequested = true ↔ Reached start msgs

theorem Counted.write {start sink' : FileSink} {msgs : List FairMQParts}
    (h : Counted start msgs sink) (hstop : sink.fStopRequested = false)
    (hwrite : writeMultipartData date compress sink msgParts = .ok sink') :
    Counted start (msgs ++ [msgParts]) sink' := by
  unfold writeMultipartData at hwrite
  rw [hstop, if_neg Bool.false_ne_true] at hwrite
  obtain ⟨s, hall, hdone⟩ := ok_of_bind hwrite
  have hnumber : (sink.fNWrite + (writes sink.fMergeMessage msgParts).length) % 2 ^ 64 =
      written start.fMergeMessage (msgs ++ [msgParts]) % 2 ^ 64 := by
    rw [h.number, h.merge, written_concat, Nat.mod_add_mod]
  cases hdone
  refine ⟨h.maximum, h.merge, hnumber, ?_⟩
  rw [decide_eq_true_iff, hnumber, h.maximum]
  rfl

/-- The sink stops with the first message after which the number of writes is the maximum, whatever
the threads do when and whatever they lose. Where messages are merged that is one message for each
write. -/
theorem stops_at_maximum (date : Text) (compress : Text → Bytes → Bytes)
    (fCompress : Bytes → Bytes) (merge : Bool) (fNThreads : Nat) {run : Int} {sink start : FileSink}
    (hstart : preRun date run sink = .ok start)
    {os : List (Observation FairMQParts FairMQParts)}
    {s : TaskProcessor FileFault FileSink FairMQParts FairMQParts}
    (hreachable : Reachable (handlers date compress fCompress merge) fNThreads start os s) :
    (∀ k < (handled os).length, ¬ Reached start ((handled os).take k)) ∧
      (∀ sink', s.device = .ok sink' →
        (sink'.fStopRequested = true ↔ Reached start (handled os))) ∧
      (start.fMergeMessage = true → 0 < start.fMaxIteration → start.fMaxIteration < 2 ^ 64 →
        (handled os).length ≤ start.fMaxIteration) := by
  suffices hcounted : (∀ k < (handled os).length, ¬ Reached start ((handled os).take k)) ∧
      ∀ sink', s.device = .ok sink' → Counted start (handled os) sink' by
    refine ⟨hcounted.1, fun sink' hdevice => (hcounted.2 sink' hdevice).stop, ?_⟩
    intro hmerge hpos hsize
    by_contra hover
    refine hcounted.1 start.fMaxIteration (Nat.lt_of_not_le hover) ⟨hpos, ?_⟩
    rw [hmerge, written_merged, List.length_take_of_le (by omega), Nat.mod_eq_of_lt hsize]
  induction hreachable with
  | start =>
      refine ⟨fun k hk => absurd hk (Nat.not_lt_zero k), ?_⟩
      intro sink' hdevice
      obtain ⟨opened, -, hdone⟩ := ok_of_bind hstart
      cases hdone
      cases hdevice
      refine ⟨rfl, rfl, rfl, ?_⟩
      rw [Reached]
      refine ⟨fun hstop => absurd hstop Bool.false_ne_true, ?_⟩
      rintro ⟨hpos, hzero⟩
      exact absurd hzero (Nat.ne_of_lt hpos)
  | @next s s' os new hreachable hstep ih =>
      obtain ⟨hbefore, hdevice⟩ := ih
      rw [handled_append]
      cases hstep.handled_cases with
      | inl hnothing =>
          rw [hnothing.1, hnothing.2, List.append_nil]
          exact ⟨hbefore, hdevice⟩
      | inr hmerge =>
          obtain ⟨d, msg, rest, hd, hstop, -, rfl, hd'⟩ := hmerge
          have hcounted := hdevice d hd
          change (∀ k < (handled os ++ [msg]).length,
            ¬ Reached start ((handled os ++ [msg]).take k)) ∧ ∀ sink', s'.device = .ok sink' →
              Counted start (handled os ++ [msg]) sink'
          refine ⟨?_, ?_⟩
          · intro k hk
            rw [List.length_append, List.length_singleton] at hk
            rw [List.take_append_of_le_length (by omega)]
            by_cases hlast : k = (handled os).length
            · rw [hlast, List.take_length]
              exact fun hreached => absurd (hstop.symm.trans (hcounted.stop.mpr hreached))
                Bool.false_ne_true
            · exact hbefore k (by omega)
          · intro sink' hsink
            exact hcounted.write hstop (hd'.symm.trans hsink)

/-- With a maximum of one write the sink stops at the first message. -/
theorem stops_at_first : ∃ start os s,
    preRun [] 1 (initTask gzipOptions 0 1 true 2 fun _ => none) = .ok start ∧
    Reachable (handlers [] gzipEmpty (gzipEmpty ".gz".toList) true) 2 start os s ∧
    handled os = [[gzipEmpty ".gz".toList []]] ∧ (handled os).length ≤ start.fMaxIteration := by
  have hstart : ∃ start, preRun [] 1 (initTask gzipOptions 0 1 true 2 fun _ => none) = .ok start ∧
      start.fStopRequested = false ∧ start.fMergeMessage = true ∧ start.fMaxIteration = 1 :=
    ⟨_, rfl, rfl, rfl, rfl⟩
  obtain ⟨start, hstart, hstop, hmerge, hmaximum⟩ := hstart
  have hmade := ((((show Reachable (handlers [] gzipEmpty (gzipEmpty ".gz".toList) true) 2 start []
      _ from .start).next
    (.accept [[]] rfl hstop rfl rfl)).next (.dispatch rfl rfl)).next
    (.receive (i := 0) rfl rfl rfl rfl)).next (.process (i := 0) rfl rfl hstop)
  have hmerged := (hmade.next (.send (i := 0) rfl rfl)).next (.merge rfl rfl rfl)
  have hhandled := (stops_at_maximum [] gzipEmpty _ true 2 hstart hmerged).2.2 hmerge
    (by rw [hmaximum]; exact Nat.one_pos) (by rw [hmaximum]; decide)
  refine ⟨start, _, _, hstart, hmerged, ?_, hhandled⟩
  simp [handled, handlers, hstop, compressMultipartData, writes]

end Userworks.E16.FileSink
