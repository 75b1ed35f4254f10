import Packwright.Proofs.Uniqueness

/-! # Where functions live

A stage hands on the scopes that it takes where they live, and functions with generated names in
their namespaces. So what holds of the addresses of all sources, and of every generated name beside
such an address, holds of the addresses of all functions of a compilation (`flow_address`).
-/

namespace Packwright

section Address

variable {good : Namespace × Text → Prop}
  (hgood : ∀ ns name id, good (ns, name) → good (ns, Anonymous.name id))

include hgood

theorem Macro.yields_address (settings : Settings) (fault : Option Fault) {sources : List Scope}
    (hsources : ∀ s ∈ sources, good s.address) :
    ∀ z ∈ (Table.trace (Stage.macros.start settings) fault sources).yields, good z.address := by
  intro z hz
  obtain ⟨s, hs, hns, hname⟩ :=
    exists_of_subperm_address (yields_subperm settings fault sources) hz
  have haddress : z.address = s.address := Prod.ext hns hname
  rw [haddress]
  rcases List.mem_append.mp hs with hs | hs
  · exact hsources s hs
  · -- a call is made in the namespace of a source, and has its name drawn
    have hreaches := (Table.trace_follows (Stage.macros.start settings) fault sources
      (settled_start settings)).finish
    have hwithin : Table.Within (fun ns => ∃ s ∈ sources, s.ns = ns) _ :=
      hreaches.within (fun s hs => ⟨s, hs, rfl⟩) (within_start _ settings)
    obtain ⟨c, hc, hns, hname⟩ := Table.exists_of_mem_started hs
    obtain ⟨s', hs', hns'⟩ := hwithin.1 c hc
    obtain ⟨id, hid, -⟩ := (hreaches.named (named_start settings)).used c hc
    have haddress : s.address = (s'.ns, Anonymous.name id) :=
      Prod.ext (hns.trans hns'.symm) (hname.trans hid)
    rw [haddress]
    exact hgood _ _ id (hsources s' hs')

theorem Block.Runs.address {m m' : Memory} {sources : List Scope} {outs : List Output}
    (h : Runs m sources m' outs) (hsources : ∀ s ∈ sources, good s.address) :
    ∀ z ∈ outs.flatMap Output.scopes, good z.address := by
  intro z hz
  obtain ⟨out, hout, hz⟩ := List.mem_flatMap.mp hz
  rcases List.mem_append.mp hz with hz | hz
  · have hmade : z ∈ outs.flatMap Output.made := List.mem_flatMap.mpr ⟨out, hout, hz⟩
    obtain ⟨s, hs, hns⟩ := h.exists_ns z hmade
    obtain ⟨id, hid, -⟩ := h.grows.fresh z hmade
    have haddress : z.address = (s.ns, Anonymous.name id) := Prod.ext hns hid
    rw [haddress]
    exact hgood _ _ id (hsources s hs)
  · rw [List.mem_singleton.mp hz]
    have hmem : out.scope.address ∈ sources.map Scope.address := by
      rw [← h.map_address]
      exact List.mem_map_of_mem (List.mem_map_of_mem hout)
    obtain ⟨s, hs, heq⟩ := List.mem_map.mp hmem
    rw [← heq]
    exact hsources s hs

/-- A stage hands on scopes where they live, or under generated names beside them. -/
theorem Stage.address_transform (stage : Stage) (settings : Settings) {f : Flow}
    (hf : ∀ s ∈ f.scopes, good s.address) :
    ∀ z ∈ (stage.transform (stage.start settings) f.fault f.events).2.scopes, good z.address := by
  have hchange : stage ≠ .macros → stage ≠ .blocks →
      ∀ z ∈ (stage.transform (stage.start settings) f.fault f.events).2.scopes,
        good z.address := by
    intro hmacros hblocks z hz
    have hmem : z.address ∈ f.scopes.map Scope.address := by
      rw [← stage.map_address_transform hmacros hblocks (stage.start settings) f]
      exact List.mem_map_of_mem hz
    obtain ⟨s, hs, heq⟩ := List.mem_map.mp hmem
    rw [← heq]
    exact hf s hs
  cases stage with
  | comments | substitutions | back => exact hchange nofun nofun
  | macros =>
      rw [(Macro.Table.trace_describes _ f).scopes]
      exact Macro.yields_address hgood settings f.fault hf
  | blocks =>
      obtain ⟨m, taken, outs, htaken, hruns, hscopes, -⟩ :=
        Block.transform_blocks (Stage.blocks.start settings) f.fault f.events
      rw [hscopes]
      exact hruns.address hgood fun s hs => hf s (htaken.subset hs)

/-- The functions of a pipeline that starts afresh live where its sources do, or under generated
names beside them. -/
theorem Pipeline.flow_address (stages : List Stage) (settings : Settings) {f : Flow}
    (hf : ∀ s ∈ f.scopes, good s.address) :
    ∀ z ∈ (flow stages (start settings stages) f).2.scopes, good z.address := by
  induction stages generalizing f with
  | nil => exact hf
  | cons stage rest ih => exact ih (stage.address_transform hgood settings hf)

end Address

end Packwright
