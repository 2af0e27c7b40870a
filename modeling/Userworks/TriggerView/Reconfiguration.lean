import Userworks.TriggerView.TriggerSources
import Userworks.LogicFilter.ExprParser
import Userworks.LogicFilter.FrameHeaders
import Userworks.LogicFilter.UnpackTdc

/-!
The tables of the viewer over its configurations. `gHistWindowInit` rebuilds the
signals and the trigger types on every configuration, but `gHistTrigSrcInit` only
adds to the entries, which hold what heartbeat frames record. Drawing is not
modelled.
-/
namespace Userworks.TriggerView

/-- An `entry_tdc`. -/
structure EntryTdc where
  tdc4n : List Int
  index : Int
  module : BitVec 32
  channel : Int
  offset : Int
  type : Int

/-- The global tables that a configuration fills. -/
structure Tables where
  g_trg_sources : List SignalId := []
  gTrigType : List (BitVec 32) := []
  gEntryTDC : List EntryTdc := []

/-- What `GetTriggerSignals` returns. -/
structure Configuration where
  signals : List (List (BitVec 32))
  exprs : List ExprParser.TrgExpression := []

def newEntry (i : SignalId) : EntryTdc where
  tdc4n := []
  index := i.index
  module := i.module
  channel := i.channel
  offset := i.offset
  type := 0

def gHistTrigSrcInit (t : Tables) : Tables :=
  { t with gEntryTDC := t.gEntryTDC ++ t.g_trg_sources.map newEntry }

/-- `gHistWindowInit` with the reply of the store. -/
def windowInit (t : Tables) (c : Configuration) : Tables :=
  gHistTrigSrcInit
    { t with g_trg_sources := gHistWindowInit c.signals, gTrigType := c.exprs.map (·.type) }

def gHistTrigTdc_clear (t : Tables) : Tables :=
  { t with gEntryTDC := t.gEntryTDC.map fun i => { i with tdc4n := [] } }

/-- `*dword`. -/
def wordAt (pdata : Bytes) (i : Nat) : Except Fault Word :=
  if i + 8 ≤ pdata.length then .ok (field 8 i pdata) else .error .undefined

/-- Channel and time of a word; only two types of front ends are decoded. -/
def decodeHit (type : Int) (dword : Word) : Option (Int × Int) :=
  if type = SubTimeFrame.TDC64H_V3.toInt then
    some ((TDC64H_V3.unpack dword {}).ch, (TDC64H_V3.unpack dword {}).tdc4n)
  else if type = SubTimeFrame.TDC64L_V3.toInt then
    some ((TDC64L_V3.unpack dword {}).ch, (TDC64L_V3.unpack dword {}).tdc4n)
  else none

/-- The type of a front end has a decoder; otherwise the loop over the words is
left at once. -/
def decodes (type : Int) : Bool :=
  type = SubTimeFrame.TDC64H_V3.toInt || type = SubTimeFrame.TDC64L_V3.toInt

def recordWord (type channel : Int) (pdata : Bytes) (tdc4n : List Int) (i : Nat) :
    Except Fault (List Int) := do
  let dword ← wordAt pdata (8 * i)
  match decodeHit type dword with
  | some (ch, t) => return if ch = channel then tdc4n ++ [t] else tdc4n
  | none => return tdc4n

/-- The number of words of a message behind the header of a heartbeat frame. -/
def wordCount (msg : Bytes) : Nat := ((BitVec.ofNat 32 msg.length - 16#32).toNat + 7) / 8

/-- The round of one entry in `gHistEntryTDC`. -/
def recordEntry (msg : Bytes) (id : BitVec 32) (type : Int) (mod : EntryTdc) :
    Except Fault EntryTdc :=
  if id = mod.module then
    if decodes type then do
      let tdc4n ← (List.range (wordCount msg)).foldlM
        (recordWord type mod.channel (msg.drop 16)) mod.tdc4n
      return { mod with type, tdc4n }
    else return { mod with type }
  else return mod

def gHistEntryTDC (t : Tables) (msg : Bytes) (id : BitVec 32) (type : Int) :
    Except Fault Tables := do
  let gEntryTDC ← t.gEntryTDC.mapM (recordEntry msg id type)
  return { t with gEntryTDC }

/-- The times of a channel in a message, in the order of its words. -/
def hitsOf (type channel : Int) (msg : Bytes) : List Int :=
  if decodes type then
    (List.range (wordCount msg)).filterMap fun i =>
      (decodeHit type (field 8 (8 * i) (msg.drop 16))).bind fun hit =>
        if hit.1 = channel then some hit.2 else none
  else []

/-- What the device calls between its start and a configuration. -/
inductive Call where
  | windowInit (c : Configuration)
  | clear
  | entry (msg : Bytes) (id : BitVec 32) (type : Int)

def call (t : Tables) : Call → Except Fault Tables
  | .windowInit c => .ok (windowInit t c)
  | .clear => .ok (gHistTrigTdc_clear t)
  | .entry msg id type => gHistEntryTDC t msg id type

/-- One entry for each signal of the configuration, in order, and so every hit of a
channel is recorded once for each signal on it. -/
def Clean (t : Tables) (c : Configuration) : Prop :=
  t.gEntryTDC = (gHistWindowInit c.signals).map newEntry ∧
    ∀ msg id type t', gHistEntryTDC t msg id type = .ok t' → ∀ channel,
      ((t'.gEntryTDC.filter fun e => e.module = id ∧ e.channel = channel).map (·.tdc4n)) =
        ((gHistWindowInit c.signals).filter fun i => i.module = id ∧ i.channel = channel).map
          fun _ => hitsOf type channel msg

theorem recordWords_eq {type channel : Int} {pdata : Bytes} {tdc4n tdc4n' : List Int}
    {is : List Nat} (h : is.foldlM (recordWord type channel pdata) tdc4n = .ok tdc4n') :
    tdc4n' = tdc4n ++ is.filterMap fun i =>
      (decodeHit type (field 8 (8 * i) pdata)).bind fun hit =>
        if hit.1 = channel then some hit.2 else none := by
  induction is generalizing tdc4n with
  | nil =>
      cases h
      simp
  | cons i is ih =>
      rw [List.foldlM_cons, recordWord, wordAt] at h
      by_cases hread : 8 * i + 8 ≤ pdata.length
      · rw [if_pos hread] at h
        cases hdecode : decodeHit type (field 8 (8 * i) pdata) with
        | none =>
            simp only [hdecode, bind, Except.bind, pure, Except.pure] at h
            rw [ih h, List.filterMap_cons, hdecode]
            rfl
        | some hit =>
            simp only [hdecode, bind, Except.bind, pure, Except.pure] at h
            rw [ih h, List.filterMap_cons, hdecode]
            by_cases hchannel : hit.1 = channel <;> simp [hchannel]
      · rw [if_neg hread] at h
        cases h

theorem recordEntry_eq {msg : Bytes} {id : BitVec 32} {type : Int} {mod mod' : EntryTdc}
    (h : recordEntry msg id type mod = .ok mod') :
    mod'.module = mod.module ∧ mod'.channel = mod.channel ∧
      (mod.module = id → mod'.tdc4n = mod.tdc4n ++ hitsOf type mod.channel msg) := by
  unfold recordEntry at h
  split at h
  · split at h
    · rename_i hdecodes
      cases hfold : (List.range (wordCount msg)).foldlM
          (recordWord type mod.channel (msg.drop 16)) mod.tdc4n with
      | error e => simp [hfold, bind, Except.bind] at h
      | ok tdc4n =>
          simp only [hfold, bind, Except.bind, pure, Except.pure] at h
          cases h
          refine ⟨rfl, rfl, fun _ => ?_⟩
          rw [hitsOf, if_pos hdecodes]
          exact recordWords_eq hfold
    · rename_i hdecodes
      cases h
      refine ⟨rfl, rfl, fun _ => ?_⟩
      rw [hitsOf, if_neg hdecodes, List.append_nil]
  · rename_i hother
    cases h
    exact ⟨rfl, rfl, fun hid => (hother hid.symm).elim⟩

/-- A message is recorded by the entries of its module and leaves the others. -/
theorem recorded_of_mapM {msg : Bytes} {id : BitVec 32} {type : Int} {es es' : List EntryTdc}
    (h : es.mapM (recordEntry msg id type) = .ok es') (channel : Int) :
    ((es'.filter fun e => e.module = id ∧ e.channel = channel).map (·.tdc4n)) =
      (es.filter fun e => e.module = id ∧ e.channel = channel).map
        fun e => e.tdc4n ++ hitsOf type channel msg := by
  induction es generalizing es' with
  | nil =>
      cases h
      rfl
  | cons e es ih =>
      rw [List.mapM_cons] at h
      cases he : recordEntry msg id type e with
      | error fault => simp [he, bind, Except.bind] at h
      | ok e' =>
          cases hes : es.mapM (recordEntry msg id type) with
          | error fault => simp [he, hes, bind, Except.bind] at h
          | ok rest =>
              simp only [he, hes, bind, Except.bind, pure, Except.pure] at h
              cases h
              obtain ⟨hmodule, hchannel, hrecord⟩ := recordEntry_eq he
              have htail := ih hes
              rw [List.filter_cons, List.filter_cons, hmodule, hchannel]
              by_cases hmine : e.module = id ∧ e.channel = channel
              · rw [if_pos (decide_eq_true hmine), if_pos (decide_eq_true hmine), List.map_cons,
                  List.map_cons, htail, hrecord hmine.1, hmine.2]
              · rw [if_neg (fun hd => hmine (of_decide_eq_true hd)),
                  if_neg (fun hd => hmine (of_decide_eq_true hd)), htail]

theorem length_gHistWindowInit (signals : List (List (BitVec 32))) :
    (gHistWindowInit signals).length = fullCount signals := by
  induction signals using List.reverseRecOn with
  | nil => rfl
  | append_singleton signals v ih =>
      rw [gHistWindowInit_concat, fullCount_concat, ← ih]
      by_cases hfull : Full v
      · obtain ⟨module, channel, offset, rest, rfl⟩ := exists_of_full hfull
        rw [if_pos hfull]
        exact List.length_append
      · rw [if_neg hfull]
        match v, hfull with
        | [], _ | [_], _ | [_, _], _ => rfl
        | _ :: _ :: _ :: _, hfull => exact absurd (Nat.le_add_left 3 _) hfull

theorem length_of_mapM {α β ε : Type} {f : α → Except ε β} {as : List α} {bs : List β}
    (h : as.mapM f = .ok bs) : bs.length = as.length := by
  induction as generalizing bs with
  | nil =>
      cases h
      rfl
  | cons a as ih =>
      rw [List.mapM_cons] at h
      cases ha : f a with
      | error e => simp [ha, bind, Except.bind] at h
      | ok b =>
          cases has : as.mapM f with
          | error e => simp [ha, has, bind, Except.bind] at h
          | ok rest =>
              simp only [ha, has, bind, Except.bind, pure, Except.pure] at h
              cases h
              exact congrArg (· + 1) (ih has)

/-- No call takes an entry away. -/
theorem length_call {t t' : Tables} {op : Call} (h : call t op = .ok t') :
    t'.gEntryTDC.length =
      t.gEntryTDC.length + match op with
        | .windowInit c => fullCount c.signals
        | .clear | .entry _ _ _ => 0 := by
  cases op with
  | windowInit c =>
      cases h
      show (t.gEntryTDC ++ (gHistWindowInit c.signals).map newEntry).length = _
      rw [List.length_append, List.length_map, length_gHistWindowInit]
  | clear =>
      cases h
      exact List.length_map _
  | entry msg id type =>
      rw [call, gHistEntryTDC] at h
      cases hes : t.gEntryTDC.mapM (recordEntry msg id type) with
      | error fault => simp [hes, bind, Except.bind] at h
      | ok es =>
          simp only [hes, bind, Except.bind, pure, Except.pure] at h
          cases h
          exact length_of_mapM hes

theorem fullCount_eq_zero_iff (signals : List (List (BitVec 32))) :
    fullCount signals = 0 ↔ ∀ group ∈ signals, ¬Full group := by
  simp [fullCount, List.countP_eq_zero]

/-- The entries are gone only where no configuration had a signal. -/
theorem entries_eq_nil_iff {t t' : Tables} {calls : List Call}
    (h : calls.foldlM call t = .ok t') :
    t'.gEntryTDC = [] ↔ t.gEntryTDC = [] ∧
      ∀ c, Call.windowInit c ∈ calls → ∀ group ∈ c.signals, ¬Full group := by
  induction calls generalizing t with
  | nil =>
      cases h
      simp
  | cons op calls ih =>
      rw [List.foldlM_cons] at h
      cases hop : call t op with
      | error fault => simp [hop, bind, Except.bind] at h
      | ok next =>
          rw [hop] at h
          have hlength := length_call hop
          rw [ih h]
          simp only [← List.length_eq_zero_iff, hlength]
          cases op with
          | windowInit c =>
              simp only [Nat.add_eq_zero_iff, fullCount_eq_zero_iff, List.mem_cons,
                forall_eq_or_imp, Call.windowInit.injEq, and_assoc]
          | clear | entry _ _ _ => simp

theorem clean_windowInit_iff (t : Tables) (c : Configuration) :
    Clean (windowInit t c) c ↔ t.gEntryTDC = [] := by
  constructor
  · intro h
    have hentries : t.gEntryTDC ++ (gHistWindowInit c.signals).map newEntry =
        (gHistWindowInit c.signals).map newEntry := h.1
    exact List.append_left_eq_self.mp hentries
  · intro hnil
    have hentries : (windowInit t c).gEntryTDC = (gHistWindowInit c.signals).map newEntry := by
      show t.gEntryTDC ++ _ = _
      rw [hnil, List.nil_append]
    refine ⟨hentries, ?_⟩
    intro msg id type t' ht' channel
    rw [gHistEntryTDC, hentries] at ht'
    cases hes : ((gHistWindowInit c.signals).map newEntry).mapM (recordEntry msg id type) with
    | error fault => simp [hes, bind, Except.bind] at ht'
    | ok es =>
        simp only [hes, bind, Except.bind, pure, Except.pure] at ht'
        cases ht'
        rw [recorded_of_mapM hes channel, List.filter_map, List.map_map]
        rfl

end Userworks.TriggerView
