import Userworks.Lib.BitSets

/-!
Bit sets over the flags of an enum, `src/utility/enum_bitset.h`. What is left out
are the shifts, the conversions to numbers and texts and the tests.
-/
namespace Userworks.E16
open scoped symmDiff

/-! ### The source -/

/-- `enum_bitset_size` and `from_enum` of an enum, a value as it is handed to `std::bitset`. The
size is that of the enum: all its values are below. -/
class EnumBitsetSize (T : Type) where
  size : Nat
  size_ne_zero : size ≠ 0
  fromEnum : T → BitVec 64
  fromEnum_lt : ∀ pos, (fromEnum pos).toNat < size

/-- `none` where `std::bitset` throws `std::out_of_range`. -/
def checked {n : Nat} (pos : Nat) (b : BitVec n) : Option (BitVec n) :=
  if pos < n then some b else none

structure EnumBitset (T : Type) [EnumBitsetSize T] where
  b : BitVec (EnumBitsetSize.size T) := 0

namespace EnumBitset

variable {T : Type} [EnumBitsetSize T]

open EnumBitsetSize (size fromEnum fromEnum_lt)

/-- `b(from_enum(pos))` -/
def ofFlag (pos : T) : EnumBitset T := ⟨(fromEnum pos).setWidth (size T)⟩

def setAll (_ : EnumBitset T) : EnumBitset T := ⟨BitVec.allOnes (size T)⟩

/-- The value is not looked at. -/
def set (x : EnumBitset T) (pos : T) (_val : Bool := true) : Option (EnumBitset T) :=
  (checked (fromEnum pos).toNat (x.b ||| BitVec.twoPow _ (fromEnum pos).toNat)).map mk

def resetAll (_ : EnumBitset T) : EnumBitset T := ⟨0⟩

def reset (x : EnumBitset T) (pos : T) : Option (EnumBitset T) :=
  (checked (fromEnum pos).toNat (x.b &&& ~~~BitVec.twoPow _ (fromEnum pos).toNat)).map mk

def flipAll (x : EnumBitset T) : EnumBitset T := ⟨~~~x.b⟩

def flip (x : EnumBitset T) (pos : T) : Option (EnumBitset T) :=
  (checked (fromEnum pos).toNat (x.b ^^^ BitVec.twoPow _ (fromEnum pos).toNat)).map mk

def ofList (vals : List T) : Option (EnumBitset T) := vals.foldlM (fun x v => x.set v) {}

def andAssign (x rhs : EnumBitset T) : EnumBitset T := ⟨x.b &&& rhs.b⟩

def orAssign (x rhs : EnumBitset T) : EnumBitset T := ⟨x.b ||| rhs.b⟩

def xorAssign (x rhs : EnumBitset T) : EnumBitset T := ⟨x.b ^^^ rhs.b⟩

/-- `operator&` -/
def and (lhs rhs : EnumBitset T) : EnumBitset T :=
  let result := lhs
  result.andAssign rhs

/-- `operator|` -/
def or (lhs rhs : EnumBitset T) : EnumBitset T :=
  let result := lhs
  result.andAssign rhs

/-- `operator^` -/
def xor (lhs rhs : EnumBitset T) : EnumBitset T :=
  let result := lhs
  result.andAssign rhs

end EnumBitset

/-! ### Programs over bit sets and over sets -/

inductive Operator where
  | and
  | or
  | xor
  deriving DecidableEq

/-- A call on the variable `x`; the operands are variables. -/
inductive Call (T : Type) where
  | ofFlag (x : Nat) (pos : T)
  | ofList (x : Nat) (vals : List T)
  | setAll (x : Nat)
  | set (x : Nat) (pos : T) (val : Bool)
  | resetAll (x : Nat)
  | reset (x : Nat) (pos : T)
  | flipAll (x : Nat)
  | flip (x : Nat) (pos : T)
  | assign (op : Operator) (x rhs : Nat)
  | free (op : Operator) (x lhs rhs : Nat)

section Programs

variable {T : Type} [EnumBitsetSize T]

open EnumBitsetSize (size fromEnum fromEnum_lt)

def Operator.assign : Operator → EnumBitset T → EnumBitset T → EnumBitset T
  | .and => EnumBitset.andAssign
  | .or => EnumBitset.orAssign
  | .xor => EnumBitset.xorAssign

def Operator.free : Operator → EnumBitset T → EnumBitset T → EnumBitset T
  | .and => EnumBitset.and
  | .or => EnumBitset.or
  | .xor => EnumBitset.xor

def Operator.meaning {n : Nat} : Operator → Finset (Fin n) → Finset (Fin n) → Finset (Fin n)
  | .and => (· ∩ ·)
  | .or => (· ∪ ·)
  | .xor => (· ∆ ·)

/-- The position of a flag. -/
def position (pos : T) : Fin (size T) := ⟨(fromEnum pos).toNat, fromEnum_lt pos⟩

def Call.target : Call T → Nat
  | .ofFlag x _ | .ofList x _ | .setAll x | .set x _ _ | .resetAll x | .reset x _ | .flipAll x
  | .flip x _ | .assign _ x _ | .free _ x _ _ => x

abbrev Store (T : Type) [EnumBitsetSize T] := Nat → EnumBitset T

abbrev Sets (T : Type) [EnumBitsetSize T] := Nat → Finset (Fin (size T))

/-- What the code puts in the variable. -/
def Call.value (store : Store T) : Call T → Option (EnumBitset T)
  | .ofFlag _ pos => some (EnumBitset.ofFlag pos)
  | .ofList _ vals => EnumBitset.ofList vals
  | .setAll x => some (store x).setAll
  | .set x pos val => (store x).set pos val
  | .resetAll x => some (store x).resetAll
  | .reset x pos => (store x).reset pos
  | .flipAll x => some (store x).flipAll
  | .flip x pos => (store x).flip pos
  | .assign op x rhs => some (op.assign (store x) (store rhs))
  | .free op _ lhs rhs => some (op.free (store lhs) (store rhs))

/-- The set that is to stand there. -/
def Call.setValue (sets : Sets T) : Call T → Finset (Fin (size T))
  | .ofFlag _ pos => {position pos}
  | .ofList _ vals => (vals.map position).toFinset
  | .setAll _ => Finset.univ
  | .set x pos val => if val then insert (position pos) (sets x) else (sets x).erase (position pos)
  | .resetAll _ => ∅
  | .reset x pos => (sets x).erase (position pos)
  | .flipAll x => (sets x)ᶜ
  | .flip x pos => sets x ∆ {position pos}
  | .assign op x rhs => op.meaning (sets x) (sets rhs)
  | .free op _ lhs rhs => op.meaning (sets lhs) (sets rhs)

def exec (store : Store T) (call : Call T) : Option (Store T) :=
  (call.value store).map (Function.update store call.target)

/-- The variables are default-constructed. -/
def run (calls : List (Call T)) : Option (Store T) := calls.foldlM exec fun _ => {}

def meaning (sets : Sets T) (call : Call T) : Sets T :=
  Function.update sets call.target (call.setValue sets)

def meanings (calls : List (Call T)) : Sets T := calls.foldl meaning fun _ => ∅

/-- Each variable holds the characteristic vector of its set. -/
def Characteristic (store : Store T) (sets : Sets T) : Prop := ∀ x, members (store x).b = sets x

/-- After each call the variables hold the sets that the calls stand for. -/
def IsSetOfFlags (calls : List (Call T)) : Prop :=
  ∀ seen, seen <+: calls → ∃ store, run seen = some store ∧ Characteristic store (meanings seen)

/-- The calls that do to a bit set what they do to the set. -/
def Call.Faithful (sets : Sets T) : Call T → Prop
  | .ofFlag _ _ => False
  | .set _ _ val => val = true
  | .free .or _ lhs rhs => sets lhs = sets rhs
  | .free .xor _ lhs rhs => sets lhs = ∅ ∧ sets rhs = ∅
  | _ => True

/-! ### One call -/

/-- No flag of the enum is out of range. -/
theorem checked_fromEnum (pos : T) (b : BitVec (size T)) :
    checked (fromEnum pos).toNat b = some b := if_pos (fromEnum_lt pos)

theorem EnumBitset.set_eq (x : EnumBitset T) (pos : T) (val : Bool) :
    x.set pos val = some ⟨x.b ||| BitVec.twoPow _ (position pos)⟩ :=
  congrArg (Option.map mk) (checked_fromEnum pos _)

theorem EnumBitset.reset_eq (x : EnumBitset T) (pos : T) :
    x.reset pos = some ⟨x.b &&& ~~~BitVec.twoPow _ (position pos)⟩ :=
  congrArg (Option.map mk) (checked_fromEnum pos _)

theorem EnumBitset.flip_eq (x : EnumBitset T) (pos : T) :
    x.flip pos = some ⟨x.b ^^^ BitVec.twoPow _ (position pos)⟩ :=
  congrArg (Option.map mk) (checked_fromEnum pos _)

theorem EnumBitset.ofList_spec (vals : List T) : ∃ v, EnumBitset.ofList vals = some v ∧
    members v.b = (vals.map position).toFinset := by
  have hfold : ∀ x : EnumBitset T, ∃ v, vals.foldlM (fun x v => x.set v) x = some v ∧
      members v.b = members x.b ∪ (vals.map position).toFinset := by
    induction vals with
    | nil => exact fun x => ⟨x, rfl, (Finset.union_empty _).symm⟩
    | cons pos vals ih =>
        intro x
        obtain ⟨v, hrun, hv⟩ := ih ⟨x.b ||| BitVec.twoPow _ (position pos)⟩
        refine ⟨v, ?_, ?_⟩
        · rw [List.foldlM_cons, EnumBitset.set_eq]
          exact hrun
        · rw [hv, members_insert, List.map_cons, List.toFinset_cons, Finset.insert_union,
            Finset.union_insert]
  obtain ⟨v, hrun, hv⟩ := hfold {}
  refine ⟨v, hrun, ?_⟩
  rw [hv]
  exact (congrArg (· ∪ _) members_zero).trans (Finset.empty_union _)

/-- The bits of a number do not reach up to the position of that number. -/
theorem EnumBitset.position_notMem_ofFlag (pos : T) :
    position pos ∉ members (EnumBitset.ofFlag pos).b := by
  rw [mem_members, EnumBitset.ofFlag, BitVec.getLsbD_setWidth, BitVec.getLsbD, position,
    Nat.testBit_lt_two_pow Nat.lt_two_pow_self, Bool.and_false]
  exact Bool.false_ne_true

theorem Operator.members_assign (op : Operator) (x rhs : EnumBitset T) :
    members (op.assign x rhs).b = op.meaning (members x.b) (members rhs.b) := by
  cases op with
  | and => exact members_and x.b rhs.b
  | or => exact members_or x.b rhs.b
  | xor => exact members_xor x.b rhs.b

theorem Operator.members_free (op : Operator) (lhs rhs : EnumBitset T) :
    members (op.free lhs rhs).b = members lhs.b ∩ members rhs.b := by
  cases op with
  | and | or | xor => exact members_and lhs.b rhs.b

/-- A call puts its set in the variable exactly if it is faithful. -/
theorem Call.value_spec {store : Store T} {sets : Sets T} (h : Characteristic store sets)
    (call : Call T) : ∃ v, call.value store = some v ∧
      (members v.b = call.setValue sets ↔ call.Faithful sets) := by
  cases call with
  | ofFlag x pos =>
      refine ⟨_, rfl, ⟨fun heq => ?_, False.elim⟩⟩
      apply EnumBitset.position_notMem_ofFlag pos
      rw [heq]
      exact Finset.mem_singleton_self _
  | ofList x vals =>
      obtain ⟨v, hv, hmembers⟩ := EnumBitset.ofList_spec vals
      exact ⟨v, hv, iff_of_true hmembers trivial⟩
  | setAll x => exact ⟨_, rfl, iff_of_true members_allOnes trivial⟩
  | set x pos val =>
      refine ⟨_, EnumBitset.set_eq _ pos val, ?_⟩
      rw [members_insert, h x]
      cases val with
      | true => exact iff_of_true rfl rfl
      | false =>
          refine ⟨fun heq => ?_, fun hval => absurd hval Bool.false_ne_true⟩
          have hmem := Finset.mem_insert_self (position pos) (sets x)
          rw [heq] at hmem
          exact absurd rfl (Finset.ne_of_mem_erase hmem)
  | resetAll x => exact ⟨_, rfl, iff_of_true members_zero trivial⟩
  | reset x pos =>
      refine ⟨_, EnumBitset.reset_eq _ pos, iff_of_true ?_ trivial⟩
      rw [members_erase, h x]
      rfl
  | flipAll x =>
      refine ⟨_, rfl, iff_of_true ?_ trivial⟩
      rw [EnumBitset.flipAll, members_not, h x]
      rfl
  | flip x pos =>
      refine ⟨_, EnumBitset.flip_eq _ pos, iff_of_true ?_ trivial⟩
      rw [members_xor, members_twoPow, h x]
      rfl
  | assign op x rhs =>
      refine ⟨_, rfl, iff_of_true ?_ trivial⟩
      rw [Operator.members_assign, h x, h rhs]
      rfl
  | free op x lhs rhs =>
      refine ⟨_, rfl, ?_⟩
      rw [Operator.members_free, h lhs, h rhs]
      cases op with
      | and => exact iff_of_true rfl trivial
      | or => exact inf_eq_sup
      | xor => exact inter_eq_symmDiff_iff

/-! ### Runs -/

theorem Characteristic.update_iff {store : Store T} {sets : Sets T} (h : Characteristic store sets)
    (x : Nat) (v : EnumBitset T) (members' : Finset (Fin (size T))) :
    Characteristic (Function.update store x v) (Function.update sets x members') ↔
      members v.b = members' := by
  constructor
  · intro hupdate
    have hx := hupdate x
    rw [Function.update_self, Function.update_self] at hx
    exact hx
  · intro hv y
    by_cases hy : y = x
    · rw [hy, Function.update_self, Function.update_self, hv]
    · rw [Function.update_of_ne hy, Function.update_of_ne hy]
      exact h y

theorem exec_spec {store : Store T} {sets : Sets T} (h : Characteristic store sets)
    (call : Call T) : ∃ store', exec store call = some store' ∧
      (Characteristic store' (meaning sets call) ↔ call.Faithful sets) := by
  obtain ⟨v, hv, hiff⟩ := call.value_spec h
  refine ⟨Function.update store call.target v, ?_, (h.update_iff _ _ _).trans hiff⟩
  rw [exec, hv]
  rfl

theorem run_concat (calls : List (Call T)) (call : Call T) :
    run (calls ++ [call]) = run calls >>= fun store => exec store call := by
  rw [run, List.foldlM_append]
  simp [run]

theorem meanings_concat (calls : List (Call T)) (call : Call T) :
    meanings (calls ++ [call]) = meaning (meanings calls) call := by
  rw [meanings, List.foldl_concat]
  rfl

theorem isSetOfFlags_concat (calls : List (Call T)) (call : Call T) :
    IsSetOfFlags (calls ++ [call]) ↔ IsSetOfFlags calls ∧ call.Faithful (meanings calls) := by
  constructor
  · intro h
    have hbefore : IsSetOfFlags calls := fun seen hseen =>
      h seen (hseen.trans (List.prefix_append calls [call]))
    refine ⟨hbefore, ?_⟩
    obtain ⟨store, hrun, hstore⟩ := hbefore calls (List.prefix_refl calls)
    obtain ⟨store', hexec, hiff⟩ := exec_spec hstore call
    obtain ⟨last, hlast, hcharacteristic⟩ := h _ (List.prefix_refl _)
    rw [run_concat, hrun] at hlast
    cases hexec.symm.trans hlast
    rw [meanings_concat] at hcharacteristic
    exact hiff.mp hcharacteristic
  · intro h seen hseen
    cases List.prefix_concat_iff.mp hseen with
    | inr hold => exact h.1 seen hold
    | inl hall =>
        obtain ⟨store, hrun, hstore⟩ := h.1 calls (List.prefix_refl calls)
        obtain ⟨store', hexec, hiff⟩ := exec_spec hstore call
        refine ⟨store', ?_, ?_⟩
        · rw [hall, run_concat, hrun]
          exact hexec
        · rw [hall, meanings_concat]
          exact hiff.mpr h.2

theorem isSetOfFlags_nil : IsSetOfFlags ([] : List (Call T)) := by
  intro seen hseen
  rw [List.prefix_nil.mp hseen]
  exact ⟨_, rfl, fun _ => members_zero⟩

/-- A run keeps to its sets exactly if each of its calls is faithful. -/
theorem isSetOfFlags_iff (calls : List (Call T)) :
    IsSetOfFlags calls ↔ ∀ before call after, calls = before ++ call :: after →
      call.Faithful (meanings before) := by
  induction calls using List.reverseRecOn with
  | nil =>
      refine iff_of_true isSetOfFlags_nil ?_
      intro before call after heq
      exact absurd heq.symm (List.append_ne_nil_of_right_ne_nil _ (List.cons_ne_nil _ _))
  | append_singleton calls last ih =>
      rw [isSetOfFlags_concat, ih]
      constructor
      · intro h before call after heq
        cases List.eq_nil_or_concat after with
        | inl hnil =>
            rw [hnil] at heq
            obtain ⟨rfl, hcall⟩ := List.append_inj' heq rfl
            cases hcall
            exact h.2
        | inr hconcat =>
            obtain ⟨front, call', rfl⟩ := hconcat
            rw [List.concat_eq_append, ← List.cons_append, ← List.append_assoc] at heq
            exact h.1 before call front (List.append_inj' heq rfl).1
      · intro h
        refine ⟨?_, h calls last [] rfl⟩
        intro before call after heq
        exact h before call (after ++ [last]) (by rw [heq, List.append_assoc, List.cons_append])

/-! ### Operators and constructions that stand for one operation -/

theorem EnumBitset.members_inj {x y : EnumBitset T} : members x.b = members y.b ↔ x = y := by
  constructor
  · intro h
    obtain ⟨b⟩ := x
    obtain ⟨b'⟩ := y
    exact congrArg mk (members_injective h)
  · intro h
    rw [h]

theorem EnumBitset.members_eq_empty {x : EnumBitset T} : members x.b = ∅ ↔ x = {} := by
  rw [← EnumBitset.members_inj]
  exact ⟨fun h => h.trans members_zero.symm, fun h => h.trans members_zero⟩

theorem EnumBitset.or_eq_orAssign_iff (lhs rhs : EnumBitset T) :
    lhs.or rhs = lhs.orAssign rhs ↔ lhs = rhs := by
  rw [← EnumBitset.members_inj, ← EnumBitset.members_inj]
  exact (Eq.congr (members_and lhs.b rhs.b) (members_or lhs.b rhs.b)).trans inf_eq_sup

theorem EnumBitset.xor_eq_xorAssign_iff (lhs rhs : EnumBitset T) :
    lhs.xor rhs = lhs.xorAssign rhs ↔ lhs = {} ∧ rhs = {} := by
  rw [← EnumBitset.members_inj, ← EnumBitset.members_eq_empty, ← EnumBitset.members_eq_empty]
  exact (Eq.congr (members_and lhs.b rhs.b) (members_xor lhs.b rhs.b)).trans
    inter_eq_symmDiff_iff

theorem EnumBitset.ofList_singleton_ne (pos : T) :
    EnumBitset.ofList [pos] ≠ some (EnumBitset.ofFlag pos) := by
  intro h
  obtain ⟨v, hv, hmembers⟩ := EnumBitset.ofList_spec [pos]
  cases h.symm.trans hv
  apply EnumBitset.position_notMem_ofFlag pos
  rw [hmembers]
  exact List.mem_toFinset.mpr (List.mem_singleton_self _)

/-- The runs that keep to their sets, and the operators and constructions that agree. -/
theorem enumBitset_is_setOfFlags (T : Type) [EnumBitsetSize T] :
    (∀ calls : List (Call T), IsSetOfFlags calls ↔ ∀ before call after,
      calls = before ++ call :: after → call.Faithful (meanings before)) ∧
    (∀ lhs rhs : EnumBitset T, lhs.and rhs = lhs.andAssign rhs ∧
      (lhs.or rhs = lhs.orAssign rhs ↔ lhs = rhs) ∧
      (lhs.xor rhs = lhs.xorAssign rhs ↔ lhs = {} ∧ rhs = {})) ∧
    ∀ pos : T, EnumBitset.ofList [pos] ≠ some (EnumBitset.ofFlag pos) := by
  refine ⟨isSetOfFlags_iff, fun lhs rhs => ⟨rfl, ?_, ?_⟩, EnumBitset.ofList_singleton_ne⟩
  · exact EnumBitset.or_eq_orAssign_iff lhs rhs
  · exact EnumBitset.xor_eq_xorAssign_iff lhs rhs

end Programs

/-! ### The debug flags -/

/-- `daq::debug::Flag`; `scEndpoint`, `scCommand` and `scPayload` have the values of the first
three. -/
inductive Flag where
  | rbcpEndpoint | rbcpHeader | rbcpBody
  | scEndpoint | scCommand | scPayload | scRegName
  | registerMapParse | registerMap | optionsParse | options
  | socketTimeout | completeFrame
  | app0 | app1
  | appConstruct | appDestruct | appFunctionStart | appFunctionEnd

def Flag.value : Flag → BitVec 64
  | .rbcpEndpoint | .scEndpoint => 1
  | .rbcpHeader | .scCommand => 2
  | .rbcpBody | .scPayload => 3
  | .scRegName => 4
  | .registerMapParse => 10
  | .registerMap => 11
  | .optionsParse => 12
  | .options => 13
  | .socketTimeout => 20
  | .completeFrame => 21
  | .app0 => 30
  | .app1 => 31
  | .appConstruct => 40
  | .appDestruct => 41
  | .appFunctionStart => 42
  | .appFunctionEnd => 43

instance : EnumBitsetSize Flag where
  size := Flag.appFunctionEnd.value.toNat + 1
  size_ne_zero := by decide
  fromEnum := Flag.value
  fromEnum_lt pos := by cases pos <;> decide

/-- The one-flag construction, `set` with `false` and the operators `|` and `^` each leave what
they stand for. -/
theorem not_enumBitset_setOfFlags :
    ¬IsSetOfFlags [Call.ofFlag 0 Flag.rbcpBody] ∧
    ¬IsSetOfFlags [Call.set 0 Flag.app0 true, Call.set 0 Flag.app0 false] ∧
    ¬IsSetOfFlags [Call.set 0 Flag.app0 true, Call.free .or 2 0 1] ∧
    ¬IsSetOfFlags [Call.set 0 Flag.app0 true, Call.free .xor 2 0 1] := by
  have happ0 : meanings [Call.set 0 Flag.app0 true] 0 = {30} := rfl
  have hother : meanings [Call.set 0 Flag.app0 true] 1 = ∅ := rfl
  refine ⟨fun h => ?_, fun h => ?_, fun h => ?_, fun h => ?_⟩
  · exact (isSetOfFlags_iff _).mp h [] _ [] rfl
  · exact Bool.false_ne_true ((isSetOfFlags_iff _).mp h [_] _ [] rfl)
  · have heq := (isSetOfFlags_iff _).mp h [_] _ [] rfl
    rw [Call.Faithful, happ0, hother] at heq
    exact Finset.singleton_ne_empty _ heq
  · have hempty := ((isSetOfFlags_iff _).mp h [_] _ [] rfl).1
    rw [happ0] at hempty
    exact Finset.singleton_ne_empty _ hempty

end Userworks.E16
