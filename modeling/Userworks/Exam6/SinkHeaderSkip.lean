import Userworks.Exam6.STFBFilePlayer
import Userworks.Exam6.TFBFileReplay

/-!
The header of a file sink in front of a file of frames. Its second word is the
length, the length of the header and the type; a player takes the three as one
64-bit size and jumps behind the header only if the upper two are zero, which they
are not in a header as the sink declares it.
-/
namespace Userworks

namespace FileSinkHeader

def noComments : Bytes := List.replicate 256 0

theorem length_noComments : noComments.length = 256 := List.length_replicate

/-- `v1::Header`, behind the magic. -/
structure Header where
  length : BitVec 32 := 0x130
  hLength : BitVec 16 := 0x130
  type : BitVec 16 := 0
  fairMQDeviceType : BitVec 64 := 0
  runNumber : BitVec 64 := 0
  startUnixtime : BitVec 64 := 0
  stopUnixtime : BitVec 64 := 0
  comments : Bytes := noComments
  length_comments : comments.length = 256 := by exact Userworks.FileSinkHeader.length_noComments

def Header.size : Nat := 304

/-- The word that the union shows as `size`. -/
def Header.sizeWord (h : Header) : Bytes := put 4 h.length ++ (put 2 h.hLength ++ put 2 h.type)

def Header.encode (h : Header) : Bytes :=
  put 8 MAGIC ++ (h.sizeWord ++
    (put 8 h.fairMQDeviceType ++ (put 8 h.runNumber ++ (put 8 h.startUnixtime ++
      (put 8 h.stopUnixtime ++ h.comments)))))

theorem Header.length_encode (h : Header) : h.encode.length = Header.size := by
  simp [encode, sizeWord, h.length_comments, size]

theorem put_injective {count : Nat} {x y : BitVec (8 * count)} (h : put count x = put count y) :
    x = y := by
  have hx := field_put_self count x []
  rw [h, field_put_self] at hx
  exact hx.symm

/-- The size is that of the header when nothing stands above the length. -/
theorem Header.sizeWord_eq_iff (h : Header) :
    h.sizeWord = put 8 (304#64) ↔ h.length = 304#32 ∧ h.hLength = 0#16 ∧ h.type = 0#16 := by
  have hsplit : put 8 (304#64) = put 4 (304#32) ++ (put 2 (0#16) ++ put 2 (0#16)) := by decide
  rw [sizeWord, hsplit]
  constructor
  · intro heq
    obtain ⟨hlength, hrest⟩ := List.append_inj heq (by simp)
    obtain ⟨hhLength, htype⟩ := List.append_inj hrest (by simp)
    exact ⟨put_injective hlength, put_injective hhLength, put_injective htype⟩
  · rintro ⟨hlength, hhLength, htype⟩
    rw [hlength, hhLength, htype]

end FileSinkHeader

namespace InputFile

open FileSinkHeader (Header)

theorem pos_read {file file' : InputFile} {got : Bytes} {n : Nat} (hgood : file.good = true)
    (hread : file.read n = (got, file')) : file'.pos = file.pos + got.length := by
  rw [read, if_pos hgood] at hread
  cases hread
  rfl

/-- A jump by the size, less what has been read, ends behind the header exactly if the
size is that of the header. -/
theorem seekgCur_pos_iff {file : InputFile} (hfail : file.failbit = false) (hpos : file.pos = 16)
    (hsize : BitVec 64) :
    (file.seekgCur (hsize - 16).toInt).pos = Header.size ↔ hsize = 304#64 := by
  have hiff : (hsize - 16).toInt = 288 ↔ hsize = 304#64 := by
    constructor
    · intro h
      have hword : hsize - 16 = 288#64 := BitVec.eq_of_toInt_eq h
      calc hsize = hsize - 16 + 16 := (BitVec.sub_add_cancel hsize 16).symm
        _ = 304#64 := by rw [hword]; rfl
    · rintro rfl
      rfl
  rw [← hiff, seekgCur, seekg, hpos]
  simp only [hfail, Bool.false_eq_true, if_false, Header.size]
  split
  · simp only
    omega
  · simp only
    omega

/-- What the player finds in the second word decides where it starts. -/
theorem skipSinkHeader_sink {MAGIC : BitVec 64} (hMAGIC : FileSinkHeader.MAGIC ≠ MAGIC)
    (h : Header) (data : Bytes) :
    (skipSinkHeader MAGIC (h.encode ++ data)).pos = Header.size ↔
      h.length = 304#32 ∧ h.hLength = 0#16 ∧ h.type = 0#16 := by
  have hsplit : h.encode ++ data = put 8 FileSinkHeader.MAGIC ++ (h.sizeWord ++
      (put 8 h.fairMQDeviceType ++ (put 8 h.runNumber ++ (put 8 h.startUnixtime ++
        (put 8 h.stopUnixtime ++ (h.comments ++ data)))))) := by
    simp only [Header.encode, List.append_assoc]
  have hword : h.sizeWord.length = 8 := by simp [Header.sizeWord]
  have hopen := remaining_open (h.encode ++ data)
  rw [hsplit] at hopen
  obtain ⟨file, hread, hrest, hgcount⟩ := hopen.read (length_put 8 _)
  obtain ⟨file', hread', hrest', -⟩ := hrest.read hword
  rw [← hsplit] at hread
  have hpos : file'.pos = 16 := by
    have hfirst : file.pos = 0 + _ := pos_read rfl hread
    rw [length_put] at hfirst
    have hsecond := pos_read hrest.good hread'
    omega
  have hmagic := field_put_self 8 FileSinkHeader.MAGIC []
  rw [List.append_nil] at hmagic
  simp only [skipSinkHeader, hread, hgcount, hmagic, hread', ne_eq, not_true_eq_false, if_false,
    hMAGIC, if_true]
  rw [seekgCur_pos_iff hrest'.failbit hpos, ← Header.sizeWord_eq_iff]
  constructor
  · intro heq
    rw [← heq, put_field 8 0 _ (Nat.le_of_eq hword.symm), List.drop_zero,
      List.take_of_length_le (Nat.le_of_eq hword)]
  · intro heq
    have hfield := field_put_self 8 (304#64) []
    rwa [List.append_nil, ← heq] at hfield

/-- A file that starts with a frame is read from its first byte. -/
theorem skipSinkHeader_pos {MAGIC : BitVec 64} {contents : Bytes} (hlen : 8 ≤ contents.length)
    (hfield : field 8 0 contents = MAGIC) : (skipSinkHeader MAGIC contents).pos = 0 := by
  have hopen := remaining_open contents
  rw [← List.take_append_drop 8 contents] at hopen
  obtain ⟨file, hread, hrest, hgcount⟩ := hopen.read (List.length_take_of_le hlen)
  rw [List.take_append_drop] at hread
  have hmagic : field 8 0 (contents.take 8) = MAGIC := by
    rw [field_take (Nat.le_refl 8), hfield]
  simp only [skipSinkHeader, hread, hgcount, hmagic, ne_eq, not_true_eq_false, if_false, if_true]
  simp [seekg, clear, hrest.failbit]

end InputFile

/-- What `PreRun` is to do with a file: the sink header is behind the read position,
and a file that starts with a frame is at its first byte. -/
def SkippedExactly (MAGIC : BitVec 64) (contents : Bytes) (file : InputFile) : Prop :=
  (∀ (h : FileSinkHeader.Header) (data : Bytes), h.length = 304#32 → h.hLength = 304#16 →
      contents = h.encode ++ data → file.pos = FileSinkHeader.Header.size) ∧
    (8 ≤ contents.length → field 8 0 contents = MAGIC → file.pos = 0)

theorem skippedExactly_iff {MAGIC : BitVec 64} (hMAGIC : FileSinkHeader.MAGIC ≠ MAGIC)
    (contents : Bytes) :
    SkippedExactly MAGIC contents (InputFile.skipSinkHeader MAGIC contents) ↔
      ¬∃ (h : FileSinkHeader.Header) (data : Bytes), h.length = 304#32 ∧ h.hLength = 304#16 ∧
        contents = h.encode ++ data := by
  constructor
  · rintro ⟨hsink, -⟩ ⟨h, data, hlength, hhLength, rfl⟩
    obtain ⟨-, hzero, -⟩ :=
      (InputFile.skipSinkHeader_sink hMAGIC h data).mp (hsink h data hlength hhLength rfl)
    rw [hzero] at hhLength
    exact absurd hhLength (by decide)
  · intro hnone
    refine ⟨fun h data hlength hhLength hcontents =>
      (hnone ⟨h, data, hlength, hhLength, hcontents⟩).elim, ?_⟩
    intro hlen hfield
    exact InputFile.skipSinkHeader_pos hlen hfield

theorem TFBFilePlayer.fInputFile_preRun (s : TFBFilePlayer.Player) (contents : Bytes) :
    (TFBFilePlayer.preRun s contents).fInputFile =
      InputFile.skipSinkHeader TimeFrame.MAGIC contents := by
  rw [TFBFilePlayer.preRun_eq]

theorem STFBFilePlayer.fInputFile_preRun (p : STFBFilePlayer.Player) (contents : Bytes) :
    (STFBFilePlayer.preRun p contents).fInputFile =
      InputFile.skipSinkHeader SubTimeFrame.MAGIC contents := by
  rw [STFBFilePlayer.preRun]

/-- Both players take `hLength` for a part of the size and jump far behind the header. -/
theorem preRun_skippedExactly_iff (s : TFBFilePlayer.Player) (p : STFBFilePlayer.Player)
    (contents : Bytes) :
    (SkippedExactly TimeFrame.MAGIC contents (TFBFilePlayer.preRun s contents).fInputFile ∧
      SkippedExactly SubTimeFrame.MAGIC contents (STFBFilePlayer.preRun p contents).fInputFile) ↔
      ¬∃ (h : FileSinkHeader.Header) (data : Bytes), h.length = 304#32 ∧ h.hLength = 304#16 ∧
        contents = h.encode ++ data := by
  rw [TFBFilePlayer.fInputFile_preRun, STFBFilePlayer.fInputFile_preRun,
    skippedExactly_iff (by decide), skippedExactly_iff (by decide), and_self_iff]

/-- A file that is the header as it is declared, and nothing else. -/
theorem not_preRun_skippedExactly :
    ¬∀ (s : TFBFilePlayer.Player) (p : STFBFilePlayer.Player) (contents : Bytes),
      SkippedExactly TimeFrame.MAGIC contents (TFBFilePlayer.preRun s contents).fInputFile ∧
        SkippedExactly SubTimeFrame.MAGIC contents
          (STFBFilePlayer.preRun p contents).fInputFile := by
  intro hall
  have hdeclared : ∃ h : FileSinkHeader.Header, h.length = 304#32 ∧ h.hLength = 304#16 :=
    ⟨{}, rfl, rfl⟩
  obtain ⟨h, hlength, hhLength⟩ := hdeclared
  have hskipped := (hall {} {} (h.encode ++ [])).2
  rw [STFBFilePlayer.fInputFile_preRun, skippedExactly_iff (by decide)] at hskipped
  exact hskipped ⟨h, [], hlength, hhLength, rfl⟩

end Userworks
