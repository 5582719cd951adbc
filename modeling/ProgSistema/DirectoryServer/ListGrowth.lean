import ProgSistema.DirectoryServer.Listing
import ProgSistema.Lib.Runs

/-!
# The list under allocation failures

A list is created and filled by any calls, and `realloc` and `strdup` fail at
any of them. What it holds is read off the calls and their return codes. A
count or capacity whose array fits in memory is far from the end of `size_t`.
-/

set_option autoImplicit false

namespace ProgSistema.DirectoryServer
open CRuntime Runs

def addPathCall (path : Option Bytes) (state : DirectoryList × Heap) :
    Except Fault (ℤ × DirectoryList × Heap) :=
  match path with
  | none => .ok (-1, state.1, state.2)
  | some path => addPathToList state.1 path state.2

def acceptedPaths (calls : List (Option Bytes × ℤ)) : List Bytes :=
  calls.filterMap fun call => if call.2 = 0 then call.1 else none

theorem accepted_append (calls : List (Option Bytes × ℤ)) (call : Option Bytes × ℤ) :
    acceptedPaths (calls++[call]) = acceptedPaths calls++acceptedPaths [call] :=
  List.filterMap_append

structure Grown (list : DirectoryList) : Prop where
  fits : list.count ≤ list.capacity
  doubled : ∃ k, list.capacity = 10*2^k

theorem grown_ready {list : DirectoryList} (h : Grown list) : Ready list := by
  obtain ⟨k, hk⟩ := h.doubled
  refine ⟨h.fits, ?_⟩
  rw [hk]
  positivity

theorem doubled_again {capacity capacity' : ℕ} (h : ∃ k, capacity = 10*2^k)
    (h' : capacity' = capacity ∨ capacity' = capacity*2) : ∃ k, capacity' = 10*2^k := by
  obtain ⟨k, rfl⟩ := h
  rcases h' with rfl | rfl
  · exact ⟨k, rfl⟩
  · exact ⟨k+1, by rw [pow_succ, mul_assoc]⟩

theorem create_list_grown {heap heap' : Heap} {list : DirectoryList}
    (h : createDirectoryList heap = (some list, heap')) : list.paths = [] ∧ Grown list := by
  rcases create_list_heap heap with ⟨heap₁, hnone, -⟩ | ⟨heap₁, hsome, -⟩
  · rw [hnone] at h
    cases h
  · rw [hsome] at h
    cases h
    exact ⟨rfl, by decide, 0, rfl⟩

/-- A call that does not return 0 has left the paths as they were. -/
theorem add_path_call_cases (path : Option Bytes) (list : DirectoryList) (heap : Heap)
    (h : Grown list) :
    ∃ code list' heap', addPathCall path (list, heap) = .ok (code, list', heap') ∧
      (code = 0 ∨ code = -1) ∧ list'.paths = list.paths++acceptedPaths [(path, code)] ∧
      Grown list' := by
  cases path with
  | none => exact ⟨-1, list, heap, rfl, Or.inr rfl, (List.append_nil _).symm, h⟩
  | some path =>
    obtain ⟨code, list', heap', hadd, hcases, hcap, hready, -⟩ :=
      add_path_cases list path heap (grown_ready h)
    have hgrown : Grown list' := ⟨hready.1, doubled_again h.doubled hcap⟩
    refine ⟨code, list', heap', hadd, ?_⟩
    rcases hcases with ⟨rfl, hpaths⟩ | ⟨rfl, hpaths⟩
    · exact ⟨Or.inl rfl, hpaths, hgrown⟩
    · refine ⟨Or.inr rfl, ?_, hgrown⟩
      rw [hpaths]
      exact (List.append_nil _).symm

theorem failed_call_keeps {path : Option Bytes} {list list' : DirectoryList} {heap heap' : Heap}
    {code : ℤ} (h : Grown list) (hcall : addPathCall path (list, heap) = .ok (code, list', heap'))
    (hcode : code ≠ 0) : list'.paths = list.paths := by
  obtain ⟨code₁, list₁, heap₁, hcall₁, -, hpaths, -⟩ := add_path_call_cases path list heap h
  rw [hcall] at hcall₁
  cases hcall₁
  rw [hpaths, acceptedPaths, List.filterMap_cons, if_neg hcode]
  exact List.append_nil _

/-- The run of a program that only adds paths. -/
theorem calls_recorded (calls : List (Option Bytes)) (list : DirectoryList) (heap : Heap)
    (hempty : list.paths = []) (h : Grown list) :
    ∃ codes list' heap', run addPathCall calls (list, heap) = .ok (codes, list', heap') ∧
      codes.length = calls.length ∧ list'.paths = acceptedPaths (calls.zip codes) ∧
      Grown list' := by
  obtain ⟨codes, ⟨list', heap'⟩, hrun, hlen, hpaths, hgrown⟩ :=
    run_records addPathCall
      (fun done state => state.1.paths = acceptedPaths done ∧ Grown state.1)
      (by
        rintro done path ⟨list, heap⟩ ⟨hpaths, hgrown⟩
        obtain ⟨code, list', heap', hcall, -, hpaths', hgrown'⟩ :=
          add_path_call_cases path list heap hgrown
        refine ⟨code, (list', heap'), hcall, ?_, hgrown'⟩
        rw [hpaths', hpaths, accepted_append])
      calls (list, heap) ⟨hempty, h⟩
  exact ⟨codes, list', heap', hrun, hlen, hpaths, hgrown⟩

/-- Whatever allocations fail in any calls, the list holds the paths whose call
has returned 0, in order; a failing call changes none of them. The array is
large enough and a doubling of ten, and the text of the list is one line for
each path, as long as the block measured for it. -/
theorem paths_of_successful_calls (calls : List (Option Bytes)) (heap heap₀ : Heap)
    (created : DirectoryList) (hcreated : createDirectoryList heap = (some created, heap₀)) :
    ∃ codes list heap', run addPathCall calls (created, heap₀) = .ok (codes, list, heap') ∧
      codes.length = calls.length ∧ list.paths = acceptedPaths (calls.zip codes) ∧
      (∀ path heap₁ code list' heap₂, addPathCall path (list, heap₁) = .ok (code, list', heap₂) →
        code ≠ 0 → list'.count = list.count ∧ list'.paths = list.paths) ∧
      list.count ≤ list.capacity ∧ (∃ k, list.capacity = 10*2^k) ∧
      ∀ heap₁, (allocate heap₁).1 = true →
        directoryListToString list heap₁ =
            .ok (some (list.paths.flatMap fun p => p++text "\n"), (allocate heap₁).2) ∧
          (list.paths.flatMap fun p => p++text "\n").length+1 = totalLength list ∧
          concatPaths list.paths ⟨totalLength list, []⟩ =
            .ok ⟨totalLength list, list.paths.flatMap fun p => p++text "\n"⟩ := by
  obtain ⟨hempty, hgrown₀⟩ := create_list_grown hcreated
  obtain ⟨codes, list, heap', hrun, hlen, hpaths, hgrown⟩ :=
    calls_recorded calls created heap₀ hempty hgrown₀
  refine ⟨codes, list, heap', hrun, hlen, hpaths, ?_, hgrown.fits, hgrown.doubled,
    to_string_allocated list⟩
  intro path heap₁ code list' heap₂ hcall hcode
  have hkept := failed_call_keeps hgrown hcall hcode
  exact ⟨congrArg List.length hkept, hkept⟩

def threeFailures : Heap := fun n => n ≠ 5 ∧ n ≠ 13 ∧ n ≠ 15

def fourteenCalls : List (Option Bytes) := (List.range 14).map fun n => some (decimal n)

theorem three_paths_missing :
    (run addPathCall fourteenCalls (⟨[], 10⟩, fun n => threeFailures (n+2))).toOption.map
        (fun r => r.2.1.paths) =
      some ([0, 1, 2, 4, 5, 6, 7, 8, 9, 10, 13].map decimal) := by
  obtain ⟨codes, list, heap', hrun, -, hpaths, -⟩ :=
    paths_of_successful_calls fourteenCalls threeFailures _ ⟨[], 10⟩ rfl
  have hcodes : (run addPathCall fourteenCalls
      (⟨[], 10⟩, fun n => threeFailures (n+2))).toOption.map (fun r => r.1) =
        some [0, 0, 0, -1, 0, 0, 0, 0, 0, 0, 0, -1, -1, 0] := by
    decide +kernel
  rw [hrun] at hcodes ⊢
  obtain rfl : codes = [0, 0, 0, -1, 0, 0, 0, 0, 0, 0, 0, -1, -1, 0] := Option.some.inj hcodes
  show some list.paths = _
  rw [hpaths]
  decide +kernel

end ProgSistema.DirectoryServer
