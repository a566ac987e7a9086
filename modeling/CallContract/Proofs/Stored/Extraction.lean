import CallContract.Proofs.Defaults
import CallContract.Proofs.Stored.Contract
import Mathlib

/-!
# The contracts of a source text are read back

Of the contracts of a source text everything is read back from the text in which they are
written but some defaults : null is read as no default, and a value is lost if it nests more
than 123 deep or holds a double that its shortest digits do not give back
(`contractsOfText?_extract`).
-/

namespace CallContract

open Json (Value)

/-- The contracts of a source text are read back from their text, in either form, exactly if no
default is null, nests more than 123 deep or holds a double that is not read back. -/
theorem contractsOfText?_extract {hoist : Bool} {r : Registry} {source : String} {x : Extraction}
    (hr : r.DefaultsIn Value.Proper) (h : extract hoist r source = .ok x) (indented : Bool) :
    contractsOfText? (contractsText x.contracts indented) = some x.contracts ↔
      ∀ c ∈ x.contracts, ∀ e ∈ c.vars, ∀ v, e.2.default = some v →
        v ≠ .null ∧ v.nesting ≤ 123 ∧ ∀ d ∈ v.doubles, Json.Number.ReadsBack d := by
  have hkept := Extraction.proper_of_extract hr h
  rw [contractsOfText?_text_iff (fun c hc => (hkept c hc).nodup)]
  refine forall₂_congr fun c hc => forall₂_congr fun e he => forall₂_congr fun v hv => ?_
  exact Value.restored_iff ((hkept c hc).row e he v hv) 123

theorem contractsOfText?_extract_literal :
    ∃ x, Registry.empty.DefaultsIn Value.Proper ∧
      extract false .empty "function f(a = -0.5) \x7b\x7d" = .ok x ∧
      x.contracts.map (fun c => c.vars.map fun e => (e.1, e.2.default.isSome)) = [[("a", true)]] ∧
      contractsOfText? (contractsText x.contracts true) = some x.contracts := by
  have hr : Registry.empty.DefaultsIn Value.Proper := fun _ hd => (List.not_mem_nil hd).elim
  let half : Binary64 := ⟨true, 4503599627370496, -53⟩
  let a : Parameter :=
    { name := "a", path := ⟨"0"⟩, default := some (.number (.double half)),
      isOptional := some true }
  have hhalf : Json.Number.ReadsBack half := by
    unfold Json.Number.ReadsBack
    decide +kernel
  have h : extract false .empty "function f(a = -0.5) \x7b\x7d" =
      .ok ⟨[⟨"f", none, [("a", a)]⟩], [], .empty⟩ := by cbv
  refine ⟨_, hr, h, rfl, (contractsOfText?_extract hr h true).mpr ?_⟩
  simp only [List.forall_mem_singleton]
  intro v hv
  obtain rfl := Option.some.inj hv
  refine ⟨Value.noConfusion, Nat.zero_le _, fun d hd => ?_⟩
  rwa [List.mem_singleton.mp hd]

/-- A default that is null is not read back. -/
theorem null_default_not_restored :
    ¬∀ (hoist : Bool) (r : Registry) (source : String) (x : Extraction) (indented : Bool),
      extract hoist r source = .ok x →
        contractsOfText? (contractsText x.contracts indented) = some x.contracts := by
  intro h
  let a : Parameter :=
    { name := "a", path := ⟨"0"⟩, default := some .null, isOptional := some true }
  have hx : extract false .empty "function f(a = null) \x7b\x7d" =
      .ok ⟨[⟨"f", none, [("a", a)]⟩], [], .empty⟩ := by cbv
  have hread : contractsOfText? (contractsText [⟨"f", none, [("a", a)]⟩] false) =
      some [⟨"f", none, [("a", { a with default := none })]⟩] := by cbv
  have hwrong := h _ _ _ _ false hx
  rw [hread] at hwrong
  simp [a] at hwrong

end CallContract
