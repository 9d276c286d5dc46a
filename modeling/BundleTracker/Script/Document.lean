import BundleTracker.Bytes.Hex
import BundleTracker.Script.Deposit
import BundleTracker.Text.Datum

/-!
# Deposits in documents

The fields under which deposits are written, alone or with their outputs.
-/

namespace BundleTracker

def Deposit.toDatum (d : Deposit) : Datum := .record [
  ("sidechain", .integer d.sidechain.toNat),
  ("destination", .text (Hex.text d.destination.toList)), ("layout", .text d.layout.text)]

def DepositOutput.toDatum (o : DepositOutput) : Datum := .record [
  ("vout", .integer o.position), ("amount", .integer o.amount.toNat),
  ("deposit", o.deposit.toDatum)]

end BundleTracker
