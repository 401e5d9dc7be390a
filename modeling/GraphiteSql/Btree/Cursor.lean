import GraphiteSql.Pager.State

/-! Reassembly of payloads that spill onto overflow pages. -/

namespace GraphiteSql

open Lib

/-- The rest of a payload of `totalLen` bytes, of which `out` is read, along the chain that
starts at `next`. Each page adds at least one byte, so `bound` missing bytes take at most
`bound` pages.
-/
def readOverflow (src : PageSource) (totalLen : Nat)
    : (bound : Nat) → (next : UInt32) → (out : Bytes) → Result Bytes
  | 0, _, out => .ok out
  | bound + 1, next, out => do
      if next = 0 ∨ totalLen ≤ out.length then return out else
      let page ← src.page next
      let nextPtr ← beU32 page.data 0
      let take := min (totalLen - out.length) (← usizeSub src.usableSize 4)
      if page.data.length < 4 + take then throw (.corrupt "overflow page too small") else
      readOverflow src totalLen bound nextPtr (out ++ (page.data.drop 4).take take)

/-- `Vec::with_capacity` for bytes: a capacity above `isize::MAX` panics. -/
def withCapacity (n : Nat) : Result Unit :=
  if n < 2 ^ 63 then .ok () else .error (.panic "capacity overflow")

def readPayload (src : PageSource) (pageBytes : Bytes) (payload : Payload) : Result Bytes := do
  withCapacity payload.totalLen
  let _ ← usizeAdd payload.localOffset payload.localLen
  let head ← orPanic "slice out of bounds" (slice pageBytes payload.localOffset payload.localLen)
  let out ← readOverflow src payload.totalLen (payload.totalLen - head.length) payload.overflow head
  if out.length ≠ payload.totalLen then
    throw (.corrupt "overflow chain shorter than payload") else
  return out

end GraphiteSql
