import Mathlib.Data.List.Basic
import Userworks.Utility.Stoi

/-!
The register map parser, `src/utility/RegisterMapParser.cxx`. Four walkers go
through the nodes of a YAML document. What a scalar or a list means to them is
decided by `fKey`, the last key that any of them has passed.
-/
namespace Userworks.E16

/-- A node as yaml-cpp shows it; a map is walked in the order of the document. -/
inductive Node where
  | null
  | scalar (text : Text)
  | seq (items : List Node)
  | map (entries : List (Text × Node))

/-- `node.as<std::string>()` -/
def Node.asString : Node → Except Fault Text
  | .scalar text => .ok text
  | .null => .ok "null".toList
  | _ => .error (.runtimeError "bad conversion".toList)

/-- `std::unordered_map::emplace`: the value that was there first stays. -/
def emplace (table : List (Text × Text)) (key value : Text) : List (Text × Text) :=
  if (table.lookup key).isSome then table else table ++ [(key, value)]

structure RegisterMapParser where
  fMapName : Text := []
  fWordSize : Nat := 1
  fKey : Text := []
  fConstKV : Text × Text := ([], [])
  fAppName : Text := []
  fRegName : Text := []
  fConstGroup : Text := []
  fRegisters : List (Text × Text) := []
  fConstants : List (Text × Text) := []

namespace RegisterMapParser

/-! ### Keys of the tables -/

def keyBaseAddress (app : Text) : Text := "app=".toList ++ data app ++ ":base_address".toList

def keyConst (app group name : Text) : Text :=
  "app=".toList ++ data app ++ ":const=".toList ++ data group ++ ":".toList ++ data name

def keyPort (app : Text) : Text := "app=".toList ++ data app ++ ":port".toList

def keyReg (app reg : Text) : Text := "app=".toList ++ data app ++ ":reg=".toList ++ data reg

def keyRegAccessMode (app reg : Text) : Text := keyReg app reg ++ ":access:mode".toList

def keyRegAccessWidth (app reg : Text) : Text := keyReg app reg ++ ":access:width".toList

def keyRegAddrFirst (app reg : Text) : Text := keyReg app reg ++ ":address:first".toList

def keyRegAddrLast (app reg : Text) : Text := keyReg app reg ++ ":address:Last".toList

/-! ### Constants -/

def emplaceConstant (p : RegisterMapParser) : RegisterMapParser :=
  { p with
    fConstants := emplace p.fConstants
      (keyConst p.fAppName p.fConstGroup p.fConstKV.1) p.fConstKV.2 }

mutual

def parseConstant : Node → RegisterMapParser → RegisterMapParser
  | .map entries, p => parseConstantEntries entries p
  | .seq items, p => parseConstantItems items { p with fConstGroup := p.fKey }
  | .scalar text, p =>
      if p.fKey = "name".toList then { p with fConstKV := (text, p.fConstKV.2) }
      else if p.fKey = "value".toList then { p with fConstKV := (p.fConstKV.1, text) }
      else p
  | .null, p => p

def parseConstantEntries : List (Text × Node) → RegisterMapParser → RegisterMapParser
  | [], p => p
  | (key, value) :: rest, p =>
      parseConstantEntries rest (parseConstant value { p with fKey := key })

def parseConstantItems : List Node → RegisterMapParser → RegisterMapParser
  | [], p => p
  | n :: rest, p => parseConstantItems rest (parseConstant n p).emplaceConstant

end

/-! ### Registers -/

def emplaceRegister (p : RegisterMapParser) (key value : Text) : RegisterMapParser :=
  { p with fRegisters := emplace p.fRegisters key value }

def parseAccess (v : List Text) (p : RegisterMapParser) : Except Fault RegisterMapParser :=
  match v with
  | [mode, width] =>
      .ok ((p.emplaceRegister (keyRegAccessMode p.fAppName p.fRegName) mode).emplaceRegister
        (keyRegAccessWidth p.fAppName p.fRegName) width)
  | [mode] =>
      .ok ((p.emplaceRegister (keyRegAccessMode p.fAppName p.fRegName) mode).emplaceRegister
        (keyRegAccessWidth p.fAppName p.fRegName) "D8".toList)
  | _ => .error (.runtimeError "invalid register access parameter".toList)

def parseAddress (v : List Text) (p : RegisterMapParser) : Except Fault RegisterMapParser :=
  match v with
  | [first, last] =>
      .ok ((p.emplaceRegister (keyRegAddrFirst p.fAppName p.fRegName) first).emplaceRegister
        (keyRegAddrLast p.fAppName p.fRegName) last)
  | [first] =>
      .ok ((p.emplaceRegister (keyRegAddrFirst p.fAppName p.fRegName) first).emplaceRegister
        (keyRegAddrLast p.fAppName p.fRegName) first)
  | _ => .error (.runtimeError "invalid register address parameter".toList)

mutual

def parseRegister : Node → RegisterMapParser → Except Fault RegisterMapParser
  | .map entries, p => parseRegisterEntries entries p
  | .seq items, p =>
      if p.fKey = "access".toList then do parseAccess (← items.mapM Node.asString) p
      else if p.fKey = "address".toList then do parseAddress (← items.mapM Node.asString) p
      else parseRegisterItems items p
  | .scalar text, p => if p.fKey = "name".toList then .ok { p with fRegName := text } else .ok p
  | .null, p => .ok p

def parseRegisterEntries : List (Text × Node) → RegisterMapParser → Except Fault RegisterMapParser
  | [], p => .ok p
  | (key, value) :: rest, p => do
      parseRegisterEntries rest (← parseRegister value { p with fKey := key })

def parseRegisterItems : List Node → RegisterMapParser → Except Fault RegisterMapParser
  | [], p => .ok p
  | n :: rest, p => do parseRegisterItems rest (← parseRegister n p)

end

/-! ### Applications -/

mutual

def parseApp : Node → RegisterMapParser → Except Fault RegisterMapParser
  | .map entries, p =>
      if p.fKey = "constants".toList then .ok (parseConstantEntries entries p)
      else parseAppEntries entries p
  | .seq items, p =>
      if p.fKey = "registers".toList then parseRegister (.seq items) p else parseAppItems items p
  | .scalar text, p =>
      if p.fKey = "name".toList then .ok { p with fAppName := text }
      else if p.fKey = "base_address".toList then
        .ok (p.emplaceRegister (keyBaseAddress p.fAppName) text)
      else if p.fKey = "port".toList then .ok (p.emplaceRegister (keyPort p.fAppName) text)
      else .ok p
  | .null, p => .ok p

def parseAppEntries : List (Text × Node) → RegisterMapParser → Except Fault RegisterMapParser
  | [], p => .ok p
  | (key, value) :: rest, p => do parseAppEntries rest (← parseApp value { p with fKey := key })

def parseAppItems : List Node → RegisterMapParser → Except Fault RegisterMapParser
  | [], p => .ok p
  | n :: rest, p => do parseAppItems rest (← parseApp n p)

end

/-- `for (const auto &n : node) parseApp(node)`: the whole list, once for each of its elements. -/
def parseApps (items : List Node) : Nat → RegisterMapParser → Except Fault RegisterMapParser
  | 0, p => .ok p
  | times + 1, p => do parseApps items times (← parseApp (.seq items) p)

/-! ### The document -/

section

-- `node.as<int>()`: which texts yaml-cpp takes for integers.
variable (asInt : Text → Option Int)

mutual

def parse : Node → RegisterMapParser → Except Fault RegisterMapParser
  | .map entries, p => parseEntries entries p
  | .seq items, p => do
      if p.fKey = "applications".toList then
        parseItems items (← parseApps items items.length p)
      else parseItems items p
  | .scalar text, p =>
      if p.fKey = "module-type".toList then .ok { p with fMapName := text }
      else if p.fKey = "word_size".toList then
        match asInt text with
        | some size => .ok { p with fWordSize := (size % 2 ^ 64).toNat }
        | none => .error (.runtimeError "bad conversion".toList)
      else .ok p
  | .null, p => .ok p

def parseEntries : List (Text × Node) → RegisterMapParser → Except Fault RegisterMapParser
  | [], p => .ok p
  | (key, value) :: rest, p => do parseEntries rest (← parse value { p with fKey := key })

def parseItems : List Node → RegisterMapParser → Except Fault RegisterMapParser
  | [], p => .ok p
  | n :: rest, p => do parseItems rest (← parse n p)

end

end

end RegisterMapParser

end Userworks.E16
