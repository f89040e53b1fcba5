import PlanGraph.Digest.Md5
import PlanGraph.Rdf.Iri

/-! Fingerprints of seed lists. The framing writes the length of every seed before the seed, so
that different lists give different bytes. -/

set_option autoImplicit false
namespace PlanGraph

abbrev Fingerprint := String

/-- The bytes of a number of 64 bits, the highest first. -/
def bigEndian64 (number : Nat) : List UInt8 := (Md5.littleEndian 8 number).reverse

def framedSeed (seed : Iri) : List UInt8 :=
  bigEndian64 seed.utf8ByteSize ++ seed.toUTF8.data.toList

def framedSeeds (seeds : List Iri) : List UInt8 := seeds.flatMap framedSeed

def hexDigit (value : Nat) : Char := Nat.digitChar value

def hexByte (byte : UInt8) : List Char := [hexDigit (byte.toNat / 16), hexDigit (byte.toNat % 16)]

def fingerprint (seeds : List Iri) : Fingerprint :=
  String.ofList ((Md5.digest (framedSeeds seeds)).flatMap hexByte)

end PlanGraph
