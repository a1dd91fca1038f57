import FinalityBridge.Signature

/-!
# Well-known accounts

Eight accounts for trying things out. The secret of each follows from its name.
-/

namespace FinalityBridge

inductive Account where
  | alice
  | bob
  | charlie
  | dave
  | eve
  | ferdie
  | one
  | two
deriving DecidableEq

namespace Account

def all : List Account := [alice, bob, charlie, dave, eve, ferdie, one, two]

def name : Account → String
  | alice => "Alice"
  | bob => "Bob"
  | charlie => "Charlie"
  | dave => "Dave"
  | eve => "Eve"
  | ferdie => "Ferdie"
  | one => "One"
  | two => "Two"

def ofName? (name : String) : Option Account := all.find? fun account => account.name == name

def seed (account : Account) : String := "//" ++ account.name

def secret (account : Account) : Hash := Keccak.digest account.seed.toUTF8.data.toList

def publicKey? (account : Account) : Option PublicKey := Secp256k1.publicKey? account.secret.toNat

def address? (account : Account) : Option Address := account.publicKey?.map (·.address)

def sign? (account : Account) (digest : Hash) : Option Signature :=
  (Secp256k1.sign? account.secret.toNat digest).map fun signed =>
    { r := .ofNat signed.r
      s := .ofNat signed.s
      v := UInt8.ofNat signed.recoveryId }

end Account

end FinalityBridge
