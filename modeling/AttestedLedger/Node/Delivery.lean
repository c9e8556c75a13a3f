/-
Delivering a block or a transaction to every peer.

All peers are sent to at once and every delivery is waited for, so a report has one entry
for each entry of the peer list, in the order in which the deliveries ended.
-/
import AttestedLedger.Peer.Call

namespace AttestedLedger

/-- What is delivered. -/
inductive Parcel where
  | block (block : Block)
  | transaction (tx : Transaction)

/-- The digest of what is delivered. -/
def Parcel.digest : Parcel → Digest
  | block b => b.digest
  | transaction tx => tx.digest

/-- Where a delivery went and where it failed. -/
structure DeliveryReport where
  delivered : List Address
  failed : List (Address × PeerError)

namespace DeliveryReport

/-- The report on deliveries in the order in which they ended. -/
def ofOutcomes : List (Address × Except PeerError Unit) → DeliveryReport
  | [] => ⟨[], []⟩
  | (peer, .ok ()) :: rest => { ofOutcomes rest with delivered := peer :: (ofOutcomes rest).delivered }
  | (peer, .error e) :: rest => { ofOutcomes rest with failed := (peer, e) :: (ofOutcomes rest).failed }

/-- Whether nothing failed. -/
def allDelivered (report : DeliveryReport) : Bool := report.failed.isEmpty

end DeliveryReport

end AttestedLedger
