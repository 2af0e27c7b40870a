import Mathlib.Data.List.Sort
import Userworks.Lib.Text

/-!
The watchdog of the lost segments: `main` listens for changes of a Redis hash and
counts how often the same field has changed within the time limit. At the threshold
it restarts the sampler that the field names, by a script.

What Redis and the clock answer is an input of the model. Redis texts that are only
printed, and the wait for the state after the restart, are left out. A `ValueError`
is its text.
-/
namespace Userworks
namespace Processwatchdog

/-- The first digit of each decimal number system of Unicode. -/
def decimalZeros : List Nat :=
  [0x30, 0x660, 0x6f0, 0x7c0, 0x966, 0x9e6, 0xa66, 0xae6, 0xb66, 0xbe6, 0xc66, 0xce6, 0xd66,
    0xde6, 0xe50, 0xed0, 0xf20, 0x1040, 0x1090, 0x17e0, 0x1810, 0x1946, 0x19d0, 0x1a80, 0x1a90,
    0x1b50, 0x1bb0, 0x1c40, 0x1c50, 0xa620, 0xa8d0, 0xa900, 0xa9d0, 0xa9f0, 0xaa50, 0xabf0,
    0xff10, 0x104a0, 0x10d30, 0x11066, 0x110f0, 0x11136, 0x111d0, 0x112f0, 0x11450, 0x114d0,
    0x11650, 0x116c0, 0x11730, 0x118e0, 0x11950, 0x11c50, 0x11d50, 0x11da0, 0x16a60, 0x16ac0,
    0x16b50, 0x1d7ce, 0x1d7d8, 0x1d7e2, 0x1d7ec, 0x1d7f6, 0x1e140, 0x1e2f0, 0x1e950, 0x1fbf0]

/-- The white space of Unicode beyond ASCII. -/
def wideSpaces : List Nat :=
  [0x85, 0xa0, 0x1680, 0x2000, 0x2001, 0x2002, 0x2003, 0x2004, 0x2005, 0x2006, 0x2007, 0x2008,
    0x2009, 0x200a, 0x2028, 0x2029, 0x202f, 0x205f, 0x3000]

def decimalDigit (c : Char) : Option Nat :=
  (decimalZeros.find? fun first => first ≤ c.toNat && c.toNat < first + 10).map (c.toNat - ·)

/-- Digits behind a digit; a single underscore may stand between two of them. -/
def digitsFrom (n : Nat) : Text → Option Nat
  | [] => some n
  | '_' :: c :: rest =>
      match decimalDigit c with
      | some d => digitsFrom (10 * n + d) rest
      | none => none
  | c :: rest =>
      match decimalDigit c with
      | some d => digitsFrom (10 * n + d) rest
      | none => none

def digits : Text → Option Nat
  | [] => none
  | c :: rest => (decimalDigit c).bind fun d => digitsFrom d rest

def isSpace (c : Char) : Bool := isspace c || wideSpaces.contains c.toNat

def strip (text : Text) : Text :=
  ((text.dropWhile isSpace).reverse.dropWhile isSpace).reverse

/-- `int(text, 10)`; there is no result when it raises `ValueError`. -/
def int10 (text : Text) : Option Int :=
  match strip text with
  | '-' :: rest => (digits rest).map fun n => -(n : Int)
  | '+' :: rest => (digits rest).map fun n => (n : Int)
  | rest => (digits rest).map fun n => (n : Int)

/-- `str` of an integer. -/
def str (n : Int) : Text :=
  if n < 0 then '-' :: Nat.toDigits 10 n.natAbs else Nat.toDigits 10 n.natAbs

/-- The order of Python on texts, by code points. -/
def textLe : Text → Text → Bool
  | [], _ => true
  | _ :: _, [] => false
  | a :: as, b :: bs => if a = b then textLe as bs else a.toNat < b.toNat

def USE_TABLE_LOOKUP : Bool := true
def RECBE_SAMPLER_KEY_PATTERN : Text := "parameters:RecbeSampler-".toList
def RECBE_SAMPLER_KEY_PREFIX : Text := "parameters:".toList
def RECBE_SAMPLER_IP_PREFIX : Text := "192.168.10.".toList

def SAMPLE_TABLE : List (Int × (Nat × Nat)) :=
  [(0, 0, 0), (1, 0, 0), (2, 0, 0), (3, 10, 0x0002), (4, 11, 0x0001), (5, 11, 0x0002),
    (6, 11, 0x0004), (7, 12, 0x0001), (8, 12, 0x0002), (9, 13, 0x0001), (10, 13, 0x0002),
    (11, 14, 0x0001), (12, 14, 0x0002), (13, 15, 0x0001), (14, 15, 0x0002), (15, 15, 0x0004),
    (16, 16, 0x0001), (17, 16, 0x0002), (18, 10, 0x0004), (19, 10, 0x0008), (20, 11, 0x0008),
    (21, 11, 0x0010), (22, 11, 0x0020), (23, 12, 0x0040), (24, 12, 0x0008), (25, 13, 0x0004),
    (26, 13, 0x0008), (27, 14, 0x0004), (28, 14, 0x0008), (29, 15, 0x0008), (30, 15, 0x0010),
    (31, 15, 0x0020), (32, 16, 0x0004), (33, 16, 0x0208), (34, 10, 0x0040)]

def uint32ToIpv4 (value : Text) : Except Text Text :=
  match int10 value with
  | none => .error ("field is not an unsigned int: ".toList ++ value)
  | some number =>
      if 0 ≤ number ∧ number ≤ 0xFFFFFFFF then
        .ok (['.'].intercalate
          ([24, 16, 8, 0].map fun shift => str ((number.toNat >>> shift) % 256 : Nat)))
      else .error ("field is outside uint32 range: ".toList ++ value)

def lookupIntegerPair (value : Text) : Except Text (Nat × Nat) :=
  match int10 value with
  | none => .error ("field is not an integer: ".toList ++ value)
  | some number =>
      match SAMPLE_TABLE.lookup number with
      | none => .error ("field is not in SAMPLE_TABLE: ".toList ++ value)
      | some pair => .ok pair

def makeFieldArgs (field : Text) : Except Text (List Text) :=
  if USE_TABLE_LOOKUP then do
    let (first, second) ← lookupIntegerPair field
    return [field, str first, str second]
  else do
    return [← uint32ToIpv4 field]

/-- The keys of a dictionary differ, so that their order is that of the items. -/
def sortedItems {α : Type} (items : List (Text × α)) : List (Text × α) :=
  items.insertionSort fun a b => textLe a.1 b.1 = true

def makeScriptArgs (hashData : List (Text × Text)) : Except Text (List Text) :=
  (sortedItems hashData).foldlM (fun args item => do
    return args ++ (← makeFieldArgs item.1) ++ [item.2]) []

/-- A hash of Redis as a dictionary. -/
structure Hash where
  items : List (Text × Text)
  nodup : (items.map Prod.fst).Nodup

namespace Hash

def keys (h : Hash) : List Text := h.items.map Prod.fst

def get (h : Hash) (field : Text) : Option Text := h.items.lookup field

end Hash

def getChangedFields (previousHash : Option Hash) (currentHash : Hash) :
    List (Text × Option Text) :=
  match previousHash with
  | none => (sortedItems currentHash.items).map fun item => (item.1, some item.2)
  | some previousHash =>
      let fields := (previousHash.keys ++
        currentHash.keys.filter fun field => !previousHash.keys.contains field).insertionSort
          fun a b => textLe a b = true
      fields.filterMap fun field =>
        if previousHash.get field ≠ currentHash.get field then some (field, currentHash.get field)
        else none

/-- The keys of the parameter database in the order of a scan, each with the field `ip`
of its hash. -/
abbrev Samplers := List (Text × Option Text)

def findRecbeSamplerKeyByIp (ipAddress : Text) : Samplers → Text
  | [] => []
  | (key, value) :: rest =>
      if !RECBE_SAMPLER_KEY_PATTERN.isPrefixOf key then findRecbeSamplerKeyByIp ipAddress rest
      else if value = some ipAddress then
        if RECBE_SAMPLER_KEY_PREFIX.isPrefixOf key then key.drop RECBE_SAMPLER_KEY_PREFIX.length
        else key
      else findRecbeSamplerKeyByIp ipAddress rest

def makeIpAddressFromField (field : Text) : Except Text Text :=
  match int10 field with
  | none => .error ("field is not an integer: ".toList ++ field)
  | some number =>
      let ipSuffix := number + 16
      if 0 ≤ ipSuffix ∧ ipSuffix ≤ 255 then .ok (RECBE_SAMPLER_IP_PREFIX ++ str ipSuffix)
      else .error ("field + 16 is outside IPv4 octet range: field=".toList ++ field ++
        " suffix=".toList ++ str ipSuffix)

def makeRecbeSamplerInstance (field : Text) (samplers : Samplers) : Except Text Text := do
  let ipAddress ← makeIpAddressFromField field
  let key := findRecbeSamplerKeyByIp ipAddress samplers
  if key = [] then
    .error ("RecbeSampler key not found: field=".toList ++ field ++ " ip=".toList ++ ipAddress)
  else return "RecbeSampler:".toList ++ key

inductive Action where
  | publishDaqctlState (state services instances : Text)
  | runScript (scriptArgs : List Text)
  deriving DecidableEq

/-- The actions of a restart and the `ValueError` it ends with, if any. The call of the
script may raise one itself (`raised`), for an argument the system does not take. -/
def runScriptWithRecbeSamplerStop (scriptArgs : List Text) (samplers : Samplers) (field : Text)
    (raised : Option Text) : List Action × Option Text :=
  match makeRecbeSamplerInstance field samplers with
  | .error what => ([], some what)
  | .ok instances =>
      let stop := Action.publishDaqctlState "STOP".toList "RecbeSampler".toList instances
      match raised with
      | some what => ([stop, .runScript scriptArgs], some what)
      | none =>
          ([stop, .runScript scriptArgs,
            .publishDaqctlState "RUN".toList "RecbeSampler".toList instances], none)

inductive Outcome where
  | below
  | deleted
  | notConverted (what : Text)
  | called (actions : List Action) (what : Option Text)
  deriving DecidableEq

/-- What the clock, the parameter database and the call of the script answer at a change
of a field. -/
structure Moment (τ : Type) where
  now : τ
  samplers : Samplers := []
  raised : Option Text := none

structure Event (τ : Type) where
  field : Text
  value : Option Text
  now : τ
  outcome : Outcome

/-- The variables of the loop, and what has happened so far, the newest first. -/
structure State (τ : Type) where
  lastHash : Option Hash := none
  lastChangedField : Option Text := none
  lastChangedTime : Option τ := none
  consecutiveFieldCount : Nat := 0
  history : List (Event τ) := []

structure Message where
  type : Text
  data : Text
  currentHash : Hash

/-- The messages that the loop does not skip. -/
def Message.heard (m : Message) : Bool :=
  m.type == "message".toList && ["hset".toList, "hmset".toList, "hdel".toList].contains m.data

section Loop

variable {τ : Type} [Sub τ] [LE τ] [DecidableLE τ]
  (threshold : Int) (timeout : τ) (moments : Nat → Moment τ)

def continues (s : State τ) (field : Text) (now : τ) : Bool :=
  match s.lastChangedTime with
  | none => false
  | some last => s.lastChangedField == some field && decide (now - last ≤ timeout)

/-- What is done about a change when the counter stands at `count`. -/
def decideOutcome (count : Nat) (field : Text) (value : Option Text) (moment : Moment τ) :
    Outcome :=
  if (count : Int) < threshold then .below
  else
    match value with
    | none => .deleted
    | some value =>
        match makeScriptArgs [(field, value)] with
        | .error what => .notConverted what
        | .ok scriptArgs =>
            let (actions, what) :=
              runScriptWithRecbeSamplerStop scriptArgs moment.samplers field moment.raised
            .called actions what

/-- The body of the loop over the changed fields. -/
def onChange (s : State τ) (change : Text × Option Text) : State τ :=
  let (field, value) := change
  let moment := moments s.history.length
  let again := continues timeout s field moment.now
  let count := if again then s.consecutiveFieldCount + 1 else 1
  let outcome := decideOutcome threshold count field value moment
  { s with
    lastChangedField := if again then s.lastChangedField else some field
    lastChangedTime := some moment.now
    consecutiveFieldCount := if outcome = .below then count else 0
    history := { field, value, now := moment.now, outcome } :: s.history }

/-- The body of the loop over the messages. -/
def onMessage (s : State τ) (m : Message) : State τ :=
  if !m.heard then s
  else
    (getChangedFields s.lastHash m.currentHash).foldl (onChange threshold timeout moments)
      { s with lastHash := some m.currentHash }

/-- The watch loop; it ends with the messages here. -/
def main [OfNat τ 0] (messages : List Message) : Except Text (State τ) :=
  if threshold < 1 then .error "consecutive_field_threshold must be at least 1".toList
  else if timeout ≤ 0 then .error "consecutive_field_timeout must be greater than 0".toList
  else .ok (messages.foldl (onMessage threshold timeout moments) {})

end Loop

end Processwatchdog
end Userworks
