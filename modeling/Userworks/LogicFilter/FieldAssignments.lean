import Userworks.Lib.Records
import Userworks.LogicFilter.UnpackTdc

/-!
The decoders of the TDC words as the assignments they make, in the order of the
source. What a decoder leaves in its structure depends on the word alone exactly
when the branch it takes assigns every field, and one branch does not.
-/
namespace Userworks

inductive TdcField where
  | type | ch | tot | tdc | tdc4n | flag | spill | hartbeat
  deriving DecidableEq

def tdcFields : Fields Tdc64 TdcField Int where
  get
    | r, .type => r.type
    | r, .ch => r.ch
    | r, .tot => r.tot
    | r, .tdc => r.tdc
    | r, .tdc4n => r.tdc4n
    | r, .flag => r.flag
    | r, .spill => r.spill
    | r, .hartbeat => r.hartbeat
  set
    | r, .type, v => { r with type := v }
    | r, .ch, v => { r with ch := v }
    | r, .tot, v => { r with tot := v }
    | r, .tdc, v => { r with tdc := v }
    | r, .tdc4n, v => { r with tdc4n := v }
    | r, .flag, v => { r with flag := v }
    | r, .spill, v => { r with spill := v }
    | r, .hartbeat, v => { r with hartbeat := v }
  get_set := by
    intro r f v g
    cases f <;> cases g <;> rfl
  ext := by
    intro r s h
    cases r
    cases s
    simpa using And.intro (h .type) ⟨h .ch, h .tot, h .tdc, h .tdc4n, h .flag, h .spill,
      h .hartbeat⟩

/-- The measured fields of a hit, assigned by every decoder. -/
def hitAssignments (masks : HitMasks) (data : Word) : List (TdcField × Int) :=
  [(.ch, maskShift data masks.chMask masks.chShift),
    (.tot, maskShift data masks.totMask masks.totShift),
    (.tdc, maskShift data masks.tdcMask masks.tdcShift),
    (.tdc4n, maskShift data masks.tdc4nMask masks.tdc4nShift)]

def controlAssignments (data : Word) : List (TdcField × Int) :=
  [(.ch, -1), (.tot, -1), (.tdc, -1), (.tdc4n, -1),
    (.flag, maskShift data 0x03ff000000000000#64 48),
    (.spill, maskShift data 0x0000ff0000000000#64 40),
    (.hartbeat, maskShift data 0x000000ffff000000#64 24)]

def otherAssignments : List (TdcField × Int) :=
  [(.ch, -1), (.tot, -1), (.tdc, -1), (.tdc4n, -1), (.flag, -1), (.spill, -1), (.hartbeat, -1)]

/-- The branches after the type, which the three older decoders share but for
what they take as a hit and do with one. -/
def assignmentsWith (isHit : Bool) (hit : List (TdcField × Int)) (data : Word) :
    List (TdcField × Int) :=
  (.type, wordType data) ::
    if isHit then hit
    else if wordType data = T_HB then controlAssignments data
    else if wordType data = T_SPL_START ∨ wordType data = T_SPL_END then controlAssignments data
    else otherAssignments

/-- A hit assigns no `flag`. -/
def TDC64H.assignments (data : Word) : List (TdcField × Int) :=
  assignmentsWith (wordType data = T_TDC)
    (hitAssignments masks data ++ [(.spill, -1), (.hartbeat, -1)]) data

def TDC64L.V1.assignments (data : Word) : List (TdcField × Int) :=
  assignmentsWith (wordType data = T_TDC)
    (hitAssignments masks data ++ [(.flag, -1), (.spill, -1), (.hartbeat, -1)]) data

def TDC64L.assignments (data : Word) : List (TdcField × Int) :=
  assignmentsWith (isHitType (wordType data))
    (hitAssignments masks data ++ [(.flag, -1), (.spill, -1), (.hartbeat, -1)]) data

inductive TdcV3Field where
  | type | ch | tot | tdc | tdc4n | flag | toffset | genesize | transize | hartbeat
  deriving DecidableEq

def tdcV3Fields : Fields Tdc64V3 TdcV3Field Int where
  get
    | r, .type => r.type
    | r, .ch => r.ch
    | r, .tot => r.tot
    | r, .tdc => r.tdc
    | r, .tdc4n => r.tdc4n
    | r, .flag => r.flag
    | r, .toffset => r.toffset
    | r, .genesize => r.genesize
    | r, .transize => r.transize
    | r, .hartbeat => r.hartbeat
  set
    | r, .type, v => { r with type := v }
    | r, .ch, v => { r with ch := v }
    | r, .tot, v => { r with tot := v }
    | r, .tdc, v => { r with tdc := v }
    | r, .tdc4n, v => { r with tdc4n := v }
    | r, .flag, v => { r with flag := v }
    | r, .toffset, v => { r with toffset := v }
    | r, .genesize, v => { r with genesize := v }
    | r, .transize, v => { r with transize := v }
    | r, .hartbeat, v => { r with hartbeat := v }
  get_set := by
    intro r f v g
    cases f <;> cases g <;> rfl
  ext := by
    intro r s h
    cases r
    cases s
    simpa using And.intro (h .type) ⟨h .ch, h .tot, h .tdc, h .tdc4n, h .flag, h .toffset,
      h .genesize, h .transize, h .hartbeat⟩

/-- The V3 decoders differ in the masks of a hit. -/
def Tdc64V3.assignments (masks : HitMasks) (data : Word) : List (TdcV3Field × Int) :=
  (.type, wordType data) ::
    if isHitType (wordType data) then
      [(.ch, maskShift data masks.chMask masks.chShift),
        (.tot, maskShift data masks.totMask masks.totShift),
        (.tdc, maskShift data masks.tdcMask masks.tdcShift),
        (.tdc4n, maskShift data masks.tdc4nMask masks.tdc4nShift),
        (.flag, -1), (.toffset, -1), (.hartbeat, -1), (.genesize, -1), (.transize, -1)]
    else if wordType data = T_HB1 then
      [(.ch, -1), (.tot, -1), (.tdc, -1), (.tdc4n, -1),
        (.flag, maskShift data 0x00ffff0000000000#64 40),
        (.toffset, maskShift data 0x000000ffff000000#64 24),
        (.hartbeat, maskShift data 0x0000000000ffffff#64 0),
        (.genesize, -1), (.transize, -1)]
    else if wordType data = T_HB2 then
      [(.ch, -1), (.tot, -1), (.tdc, -1), (.tdc4n, -1),
        (.flag, maskShift data 0x00ffff0000000000#64 40),
        (.toffset, -1), (.hartbeat, -1),
        (.genesize, maskShift data 0x000000fffff00000#64 20),
        (.transize, maskShift data 0x00000000000fffff#64 0)]
    else
      [(.ch, -1), (.tot, -1), (.tdc, -1), (.tdc4n, -1), (.flag, -1),
        (.toffset, -1), (.hartbeat, -1), (.genesize, -1), (.transize, -1)]

theorem TDC64H.unpack_eq_assign (data : Word) (tdc : Tdc64) :
    TDC64H.unpack data tdc = tdcFields.assign tdc (TDC64H.assignments data) := by
  unfold TDC64H.unpack TDC64H.assignments assignmentsWith
  simp only [decide_eq_true_eq]
  repeat' split
  all_goals rfl

theorem TDC64L.V1.unpack_eq_assign (data : Word) (tdc : Tdc64) :
    TDC64L.V1.unpack data tdc = tdcFields.assign tdc (TDC64L.V1.assignments data) := by
  unfold TDC64L.V1.unpack TDC64L.V1.assignments assignmentsWith
  simp only [decide_eq_true_eq]
  repeat' split
  all_goals rfl

theorem TDC64L.unpack_eq_assign (data : Word) (tdc : Tdc64) :
    TDC64L.unpack data tdc = tdcFields.assign tdc (TDC64L.assignments data) := by
  unfold TDC64L.unpack TDC64L.assignments assignmentsWith
  repeat' split
  all_goals rfl

theorem Tdc64V3.unpack_eq_assign (masks : HitMasks) (data : Word) (tdc : Tdc64V3) :
    Tdc64V3.unpack masks data tdc = tdcV3Fields.assign tdc (Tdc64V3.assignments masks data) := by
  unfold Tdc64V3.unpack Tdc64V3.assignments
  repeat' split
  all_goals rfl

/-- Only the hit branch can leave a field out. -/
theorem mem_assignmentsWith (isHit : Bool) (hit : List (TdcField × Int)) (data : Word)
    (f : TdcField) (hhit : isHit = true → f = .type ∨ f ∈ hit.map Prod.fst) :
    f ∈ (assignmentsWith isHit hit data).map Prod.fst := by
  unfold assignmentsWith
  rw [List.map_cons, List.mem_cons]
  cases hcase : isHit with
  | true => simpa using hhit hcase
  | false =>
      simp only [Bool.false_eq_true, if_false]
      repeat' split
      all_goals cases f <;> simp [controlAssignments, otherAssignments]

theorem TDC64L.V1.unpack_data_only (data : Word) (p q : Tdc64) :
    TDC64L.V1.unpack data p = TDC64L.V1.unpack data q := by
  rw [TDC64L.V1.unpack_eq_assign, TDC64L.V1.unpack_eq_assign]
  apply Fields.assign_eq_of_all
  intro f
  apply mem_assignmentsWith
  intro _
  cases f <;> simp [hitAssignments]

theorem TDC64L.unpack_data_only (data : Word) (p q : Tdc64) :
    TDC64L.unpack data p = TDC64L.unpack data q := by
  rw [TDC64L.unpack_eq_assign, TDC64L.unpack_eq_assign]
  apply Fields.assign_eq_of_all
  intro f
  apply mem_assignmentsWith
  intro _
  cases f <;> simp [hitAssignments]

theorem Tdc64V3.unpack_data_only (masks : HitMasks) (data : Word) (p q : Tdc64V3) :
    Tdc64V3.unpack masks data p = Tdc64V3.unpack masks data q := by
  rw [Tdc64V3.unpack_eq_assign, Tdc64V3.unpack_eq_assign]
  apply Fields.assign_eq_of_all
  intro f
  unfold Tdc64V3.assignments
  rw [List.map_cons, List.mem_cons]
  repeat' split
  all_goals cases f <;> simp

theorem TDC64H.unpack_eq_iff (data : Word) (p q : Tdc64) :
    TDC64H.unpack data p = TDC64H.unpack data q ↔ wordType data ≠ T_TDC ∨ p.flag = q.flag := by
  rw [TDC64H.unpack_eq_assign, TDC64H.unpack_eq_assign, Fields.assign_eq_iff]
  by_cases htype : wordType data = T_TDC
  · have hflag : TdcField.flag ∉ (TDC64H.assignments data).map Prod.fst := by
      unfold TDC64H.assignments assignmentsWith
      rw [if_pos (decide_eq_true htype)]
      simp [hitAssignments]
    constructor
    · intro h
      exact Or.inr (h .flag hflag)
    · intro h f hf
      cases f with
      | flag => exact h.resolve_left (fun hne => hne htype)
      | type | ch | tot | tdc | tdc4n | spill | hartbeat =>
          refine (hf ?_).elim
          apply mem_assignmentsWith
          intro _
          simp [hitAssignments]
  · constructor
    · intro _
      exact Or.inl htype
    · intro _ f hf
      refine (hf ?_).elim
      apply mem_assignmentsWith
      intro hhit
      exact absurd (of_decide_eq_true hhit) htype

/-- The hit branch of one decoder hands on the `flag` of the word before. -/
theorem unpack_data_only_iff (data : Word) (p q : Tdc64) (p3 q3 : Tdc64V3) :
    (TDC64H.unpack data p = TDC64H.unpack data q ∧
      TDC64L.V1.unpack data p = TDC64L.V1.unpack data q ∧
      TDC64L.unpack data p = TDC64L.unpack data q ∧
      TDC64H_V3.unpack data p3 = TDC64H_V3.unpack data q3 ∧
      TDC64L_V3.unpack data p3 = TDC64L_V3.unpack data q3) ↔
      wordType data ≠ T_TDC ∨ p.flag = q.flag := by
  rw [← TDC64H.unpack_eq_iff]
  constructor
  · intro h
    exact h.1
  · intro h
    exact ⟨h, TDC64L.V1.unpack_data_only data p q, TDC64L.unpack_data_only data p q,
      Tdc64V3.unpack_data_only _ data p3 q3, Tdc64V3.unpack_data_only _ data p3 q3⟩

theorem not_unpack_data_only :
    ¬∀ (data : Word) (p q : Tdc64) (p3 q3 : Tdc64V3),
      TDC64H.unpack data p = TDC64H.unpack data q ∧
        TDC64L.V1.unpack data p = TDC64L.V1.unpack data q ∧
        TDC64L.unpack data p = TDC64L.unpack data q ∧
        TDC64H_V3.unpack data p3 = TDC64H_V3.unpack data q3 ∧
        TDC64L_V3.unpack data p3 = TDC64L_V3.unpack data q3 := by
  intro h
  have hflag := congrArg Tdc64.flag (h 0x2c00000000000000#64 { flag := 1 } {} {} {}).1
  exact absurd hflag (by decide)

end Userworks
