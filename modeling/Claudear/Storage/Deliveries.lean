import Claudear.Sql.Table
import Claudear.Storage.Error

/-!
# The `webhook_deliveries` table

One row for each delivery id of a source. A delivery is new when its row goes in;
rows older than the retention are deleted from time to time.
-/

namespace Claudear.Storage

open Claudear.Sql

/-- `UNIQUE(delivery_id, source)` -/
structure DeliveryKey where
  deliveryId : String
  source : String
  deriving DecidableEq, Repr

structure DeliveryRow where
  key : DeliveryKey
  receivedAt : Timestamp
  deriving DecidableEq, Repr

abbrev Deliveries := Table DeliveryRow

namespace Deliveries

/-- `INSERT OR IGNORE`, and whether a row went in. The id of a row is read nowhere. -/
def checkAndRecordDelivery (t : Deliveries) (now : Timestamp) (k : DeliveryKey) : Bool × Deliveries :=
  if t.any fun r => r.2.key = k then (false, t) else (true, t.insert ⟨k, now⟩)

def hours (n : Nat) : Int := n * 3600

/-- `received_at < datetime('now', '-? hours')` -/
def expired (now : Timestamp) (maxAgeHours : Nat) (r : DeliveryRow) : Bool :=
  r.receivedAt < now - hours maxAgeHours

def cleanupOldDeliveries (t : Deliveries) (now : Timestamp) (maxAgeHours : Nat) : Deliveries :=
  t.delete (expired now maxAgeHours)

/-- The delivery is recorded, and no earlier than at `since`. -/
def RecordedSince (t : Deliveries) (since : Timestamp) (k : DeliveryKey) : Prop :=
  t.Has fun r => r.key = k ∧ since ≤ r.receivedAt

variable {t : Deliveries} {now since : Timestamp} {k k' : DeliveryKey}

theorem RecordedSince.of_check (h : (t.checkAndRecordDelivery now k).1 = true) :
    (t.checkAndRecordDelivery now k).2.RecordedSince now k := by
  unfold checkAndRecordDelivery at h ⊢
  split at h
  · cases h
  · rename_i hn
    rw [if_neg hn]
    exact Table.has_insert.mpr (.inr ⟨rfl, Int.le_refl _⟩)

/-- A new delivery leaves the others' records. -/
theorem RecordedSince.record (h : t.RecordedSince since k) :
    (t.checkAndRecordDelivery now k').2.RecordedSince since k := by
  unfold checkAndRecordDelivery
  split
  · exact h
  · exact Table.has_insert.mpr (.inl h)

/-- A record is kept for the retention. -/
theorem RecordedSince.cleanup {n : Nat} (h : t.RecordedSince since k) (hnow : now ≤ since + hours n) :
    (t.cleanupOldDeliveries now n).RecordedSince since k := by
  obtain ⟨i, r, hi, hk, hr⟩ := h
  refine Table.has_delete.mpr ⟨i, r, hi, ⟨hk, hr⟩, ?_⟩
  exact decide_eq_false (Int.not_lt.mpr (Int.le_trans (Int.sub_right_le_of_le_add hnow) hr))

end Deliveries

end Claudear.Storage
