/-!
# Chain — chains and the platforms they run on

* `Platform` — the execution environments that matter for fees;
* `Chain` — the known chains with their wire numbers;
* `Chain.ofId?` — the chain that carries a number, if any.

The table is closed: `Chain.all` lists every chain once, and numbers are distinct.
-/

namespace WireLayout

/-! ## Platforms -/

/-- The execution environment of a chain. -/
inductive Platform where
  | evm
  | solana
  | sui
  | aptos
  deriving DecidableEq, Repr, Inhabited

namespace Platform

/-- The name of a platform in messages. -/
def title : Platform → String
  | .evm => "Evm"
  | .solana => "Solana"
  | .sui => "Sui"
  | .aptos => "Aptos"

/-- The upper-case key under which a platform is listed. -/
def key : Platform → String
  | .evm => "EVM"
  | .solana => "SOLANA"
  | .sui => "SUI"
  | .aptos => "APTOS"

/-- Every platform, once. -/
def all : List Platform := [.evm, .solana, .sui, .aptos]

/-- The platform listed under a key. -/
def ofKey? (key : String) : Option Platform :=
  all.find? fun p => p.key == key

end Platform

/-! ## Chains -/

/-- A chain that price updates may address. -/
inductive Chain where
  | solana
  | ethereum
  | bsc
  | polygon
  | avalanche
  | sui
  | aptos
  | arbitrum
  | optimism
  | base
  deriving DecidableEq, Repr, Inhabited

namespace Chain

/-- The number that stands for a chain on the wire. -/
def id : Chain → Nat
  | .solana => 1
  | .ethereum => 2
  | .bsc => 4
  | .polygon => 5
  | .avalanche => 6
  | .sui => 21
  | .aptos => 22
  | .arbitrum => 23
  | .optimism => 24
  | .base => 30

/-- The upper-case name of a chain. -/
def name : Chain → String
  | .solana => "SOLANA"
  | .ethereum => "ETHEREUM"
  | .bsc => "BSC"
  | .polygon => "POLYGON"
  | .avalanche => "AVALANCHE"
  | .sui => "SUI"
  | .aptos => "APTOS"
  | .arbitrum => "ARBITRUM"
  | .optimism => "OPTIMISM"
  | .base => "BASE"

/-- The platform a chain runs on. -/
def platform : Chain → Platform
  | .solana => .solana
  | .sui => .sui
  | .aptos => .aptos
  | _ => .evm

/-- Every chain, once. -/
def all : List Chain :=
  [.solana, .ethereum, .bsc, .polygon, .avalanche, .sui, .aptos, .arbitrum, .optimism, .base]

/-- The chain with a given number. -/
def ofId? (n : Int) : Option Chain :=
  all.find? fun c => (c.id : Int) == n

/-- The chain with a given name. -/
def ofName? (name : String) : Option Chain :=
  all.find? fun c => c.name == name

theorem mem_all (c : Chain) : c ∈ all := by
  cases c <;> decide

/-- A chain is found under its own number. -/
@[simp] theorem ofId?_id (c : Chain) : ofId? c.id = some c := by
  cases c <;> decide

end Chain

end WireLayout
