import BundleTracker.Bytes.Block
import BundleTracker.Bytes.Hex
import BundleTracker.Hash.Sha256

/-!
# Digests

A digest is 32 stored bytes. Its text form is hexadecimal with the stored bytes
reversed, so the last stored byte is written first; reading takes either case.
-/

namespace BundleTracker

abbrev Digest := Block 32

/-- SHA-256 of a byte string. -/
def sha256 (bytes : List UInt8) : Digest := ⟨(Sha256.run bytes).toBytes, rfl⟩

/-- SHA-256 applied twice. -/
def sha256d (bytes : List UInt8) : Digest := sha256 (sha256 bytes).toList

namespace Digest

/-- Hexadecimal text with the stored bytes reversed. -/
def text (d : Digest) : String := Hex.text d.toList.reverse

def ofText? (s : String) : Option Digest := do
  let bytes ← Hex.ofText? s
  Block.ofList? bytes.reverse

@[simp] theorem ofText?_text (d : Digest) : ofText? d.text = some d := by
  simp [ofText?, text]

end Digest

end BundleTracker
