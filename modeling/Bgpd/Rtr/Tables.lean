import Bgpd.Lib.RbTree
import Bgpd.Rpki.RoaSet

/-!
# The Tables of the RTR Engine

Model of the trees of ROAs and ASPA sets, of the functions of `rtr.c` that merge them, and of the
messages to the RDE that `rtr_recalc` makes of them.

A tree is the list of its elements in order. The numbers of AS are natural numbers.

## Layout

- `rtrRoaInsert`, `rtrAspaInsert`: merging
- `Static`, `RpkiData`: where the data comes from
- `recalcMsgs`: the messages
-/

namespace Bgpd.Rtr

open Lib
open Rpki (AnyRoa roaCmp)

/-! ## Merging -/

/-- `struct aspa_set` -/
structure AspaSet where
  as : ℕ
  tas : List ℕ
  deriving DecidableEq, Repr

/-- `aspa_cmp` -/
def aspaCmp (a b : AspaSet) : ℤ := if a.as < b.as then -1 else if a.as > b.as then 1 else 0

/-- `rtr_roa_insert`: duplicates are ignored. -/
def rtrRoaInsert (rt : List AnyRoa) (roa : AnyRoa) : List AnyRoa := (rbInsert roaCmp roa rt).getD rt

/-- `aspa_set_entry` -/
def aspaSetEntry : List ℕ → ℕ → List ℕ
  | [], asnum => [asnum]
  | t :: tas, asnum =>
    if asnum < t then asnum :: t :: tas
    else if asnum = t then t :: tas
    else t :: aspaSetEntry tas asnum

/-- The providers of a set are added to a set. -/
def AspaSet.merge (mergeset aspa : AspaSet) : AspaSet :=
  { aspa with tas := mergeset.tas.foldl aspaSetEntry aspa.tas }

/-- `rtr_aspa_insert` -/
def rtrAspaInsert (at_ : List AspaSet) (mergeset : AspaSet) : List AspaSet :=
  match rbFind aspaCmp ⟨mergeset.as, []⟩ at_ with
  | some aspa => at_.map fun x => if x = aspa then mergeset.merge x else x
  | none => (rbInsert aspaCmp (mergeset.merge ⟨mergeset.as, []⟩) at_).getD at_

/-! ## Sources -/

/-- The trees of the configuration. The second part of an element is its `expires`. -/
structure Static where
  roa : List (AnyRoa × ℕ) := []
  aspa : List (AspaSet × ℕ) := []

/-- `rtr_roa_insert` into the new configuration. -/
def Static.addRoa (conf : Static) (roa : AnyRoa) (expires : ℕ) : Static :=
  let new := rbInsert (fun a b => roaCmp a.1 b.1) (roa, expires) conf.roa
  { conf with roa := new.getD conf.roa }

/-- `RB_INSERT` into the new configuration; a duplicate is only reported. -/
def Static.addAspa (conf : Static) (aspa : AspaSet) (expires : ℕ) : Static :=
  let new := rbInsert (fun a b => aspaCmp a.1 b.1) (aspa, expires) conf.aspa
  { conf with aspa := new.getD conf.aspa }

/-- `rtr_expire_roas`: the elements that are left. -/
def Static.expireRoas (conf : Static) (now : ℕ) : Static :=
  { conf with roa := conf.roa.filter fun x => x.2 = 0 ∨ now < x.2 }

/-- `rtr_expire_aspa` -/
def Static.expireAspa (conf : Static) (now : ℕ) : Static :=
  { conf with aspa := conf.aspa.filter fun x => x.2 = 0 ∨ now < x.2 }

/-- The trees of a session. -/
structure RpkiData where
  roaSet : List AnyRoa := []
  aspa : List AspaSet := []

/-- The ROAs of all sources, as `rtr_roa_merge` merges them. -/
def mergedRoas (conf : Static) (sources : List RpkiData) : List AnyRoa :=
  sources.foldl (fun rt d => d.roaSet.foldl rtrRoaInsert rt)
    ((conf.roa.map (·.1)).foldl rtrRoaInsert [])

/-- The ASPA sets of all sources, as `rtr_aspa_merge` merges them. -/
def mergedAspas (conf : Static) (sources : List RpkiData) : List AspaSet :=
  sources.foldl (fun t d => d.aspa.foldl rtrAspaInsert t)
    ((conf.aspa.map (·.1)).foldl rtrAspaInsert [])

/-! ## Messages -/

/-- The messages to the RDE, `IMSG_RECONF_ROA_SET` to `IMSG_RECONF_DONE`. -/
inductive RdeMsg where
  | roaSet
  | roaItem (roa : AnyRoa)
  | aspaPrep (datasize entries : ℕ)
  | aspa (as num : ℕ)
  | aspaTas (tas : List ℕ)
  | aspaDone
  | done

/-- `MAX_ASPA_SPAS_COUNT` -/
def maxAspaSpasCount : ℕ := 10000

/-- `rtr_aspa_set_size`: `datasize` and `entries` with the ones of a set. -/
def rtrAspaSetSize (ap : ℕ × ℕ) (aspa : AspaSet) : ℕ × ℕ :=
  if maxAspaSpasCount < aspa.tas.length then ap
  else (ap.1 + aspa.tas.length * 4, ap.2 + 1)

/-- The messages for a set; one that is too large is left out. -/
def aspaMsgs (aspa : AspaSet) : List RdeMsg :=
  if maxAspaSpasCount < aspa.tas.length then []
  else [.aspa aspa.as aspa.tas.length, .aspaTas aspa.tas, .aspaDone]

/-- `rtr_recalc`: the messages. The tree of ASPA sets is walked in reverse because `aspa_add_set`
    requires that. -/
def recalcMsgs (conf : Static) (sources : List RpkiData) : List RdeMsg :=
  let ap := (mergedAspas conf sources).foldl rtrAspaSetSize (0, 0)
  .roaSet :: (mergedRoas conf sources).map .roaItem ++
    .aspaPrep ap.1 ap.2 :: (mergedAspas conf sources).reverse.flatMap aspaMsgs ++ [.done]

end Bgpd.Rtr
