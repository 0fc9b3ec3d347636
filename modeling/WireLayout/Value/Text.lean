import WireLayout.Value

/-!
# Written form of values

* `Value.listed` — a value as it stands in a listing: texts and bytes quoted, sequences in brackets,
  records with their field names;
* `Value.shown` — a value inside a sentence: a text stands for itself;
* `Value.spellable` — whether a value has a written form: no integer in it has too many digits.
-/

namespace WireLayout

/-- Separates the parts of a listing. -/
def commaSeparated (parts : List String) : String := ", ".intercalate parts

/-- Parts in square brackets. -/
def bracketed (parts : List String) : String := "[" ++ commaSeparated parts ++ "]"

/-- Parts in round brackets; a single part is followed by a comma. -/
def parenthesised : List String → String
  | [part] => "(" ++ part ++ ",)"
  | parts => "(" ++ commaSeparated parts ++ ")"

/-- A record: its name and its named parts. -/
def recordListed (name : String) (parts : List (String × String)) : String :=
  name ++ "(" ++ commaSeparated (parts.map fun (k, v) => k ++ "=" ++ v) ++ ")"

/-- A list of names as it stands in a listing. -/
def namesListed (names : List Label) : String := bracketed (names.map Label.listed)

namespace Value

/-- A block of bytes; one that may grow names its kind. -/
def bytesListed : BytesForm → List UInt8 → String
  | .frozen, content => Quoted.bytes content
  | .growing, content => "bytearray(" ++ Quoted.bytes content ++ ")"
  | .view, content => "memoryview(" ++ Quoted.bytes content ++ ")"

mutual

/-- A value as it stands in a listing. -/
def listed : Value → String
  | .none => "None"
  | .bool b => truthText b
  | .int n => toString n
  | .chain c => Numeral.chainListed c
  | .float x => x.text
  | .text s => Quoted.text s
  | .bytes form content => bytesListed form content
  | .list items => bracketed (listedAll items)
  | .tuple items => parenthesised (listedAll items)
  | .dict entries => "\x7b" ++ commaSeparated (listedEntries entries) ++ "\x7d"
  | .evmFees a b c =>
    recordListed "EvmFeeParams"
      [("gas_price", a.listed), ("blob_base_fee", b.listed), ("gas_token_price", c.listed)]
  | .solanaFees a b c =>
    recordListed "SolanaFeeParams"
      [("solana_account_overhead", a.listed), ("solana_size_cost", b.listed),
        ("gas_token_price", c.listed)]
  | .command a b => recordListed "Command" [("name", a.listed), ("value", b.listed)]
  | .chainCommand a b => recordListed "ChainCommand" [("chain", a.listed), ("command", b.listed)]

/-- The written forms of several values. -/
def listedAll : List Value → List String
  | [] => []
  | v :: vs => v.listed :: listedAll vs

/-- The written forms of dictionary entries. -/
def listedEntries : List (Label × Value) → List String
  | [] => []
  | (k, v) :: rest => (k.listed ++ ": " ++ v.listed) :: listedEntries rest

end

mutual

/-- Whether all integers in a value can be spelt. -/
def spellable : Value → Bool
  | .int n => WireLayout.spellable n
  | .list items => allSpellable items
  | .tuple items => allSpellable items
  | .dict entries => entriesSpellable entries
  | .evmFees a b c => a.spellable && b.spellable && c.spellable
  | .solanaFees a b c => a.spellable && b.spellable && c.spellable
  | .command a b => a.spellable && b.spellable
  | .chainCommand a b => a.spellable && b.spellable
  | _ => true

/-- Whether all integers in several values can be spelt. -/
def allSpellable : List Value → Bool
  | [] => true
  | v :: vs => v.spellable && allSpellable vs

/-- Whether all integers in dictionary entries can be spelt. -/
def entriesSpellable : List (Label × Value) → Bool
  | [] => true
  | (k, v) :: rest => k.spellable && v.spellable && entriesSpellable rest

end

/-- A value inside a sentence. -/
def shown : Value → String
  | .text s => s
  | .chain c => toString c.id
  | v => v.listed

end Value
end WireLayout
