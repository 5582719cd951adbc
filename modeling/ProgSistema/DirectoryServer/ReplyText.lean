import ProgSistema.DirectoryServer.Listing
import ProgSistema.DirectoryServer.Protocol

/-!
# What the text of a reply tells

Listings and error messages share one text format. Nothing is escaped, so that
a newline in a path splits its line in two, and a listing begins like an error
message where its first path does.
-/

set_option autoImplicit false

namespace ProgSistema.DirectoryServer
open CRuntime FileTree

def newline : UInt8 := 10

def collected (fs : FileSystem) (fuel : ℕ) (path : Bytes) (heap : Heap) : Option (List Bytes) :=
  if strstr path dotdot || !isDirectory fs path then none
  else match createDirectoryList heap with
    | (none, _) => none
    | (some list, heap) =>
      match exploreDirectoryRecursive fs fuel path list heap with
      | .error _ => none
      | .ok (explored, list, heap) =>
        if explored ≠ 0 then none
        else match directoryListToString list heap with
          | .ok (some _, _) => some list.paths
          | _ => none

/-- Every path that a visit collects begins with the path of the directory, and
a separator where that does not end in one. -/
theorem read_entries_below (fs : FileSystem)
    (explore : Bytes → DirectoryList → Heap → Except Fault (ℤ × DirectoryList × Heap)) (dir : Bytes)
    (hexp : ∀ path list heap list' heap', Ready list →
      explore path list heap = .ok (0, list', heap') →
        ∃ added, Extends list added list' ∧ ∀ p ∈ added, path <+: p)
    (stream : List Bytes) (list list' : DirectoryList) (heap heap' : Heap) (hlist : Ready list)
    (h : readEntries fs explore dir stream list heap = .ok (0, list', heap')) :
    ∃ added, Extends list added list' ∧ ∀ p ∈ added, dir++separator dir <+: p := by
  induction stream generalizing list heap with
  | nil =>
    cases h
    exact ⟨[], ⟨(List.append_nil _).symm, hlist⟩, by simp⟩
  | cons name stream ih =>
    rw [readEntries] at h
    split at h
    · exact ih list heap hlist h
    · rw [build_path_heap] at h
      simp only [ok_bind] at h
      cases h0 : heap 0 with
      | false =>
        rw [h0] at h
        cases h
      | true =>
        rw [h0] at h
        simp only [if_true] at h
        split at h
        · obtain ⟨code, l₁, heap₁, hadd, hcases, -⟩ := add_path_heap list
            (dir++separator dir++name) (fun n => heap (n+1)) hlist
          rw [hadd] at h
          simp only [ok_bind] at h
          rcases hcases with ⟨rfl, h₁⟩ | ⟨rfl, -⟩
          · simp only [ne_eq, not_true_eq_false, if_false] at h
            cases hexplore : explore (dir++separator dir++name) l₁ heap₁ with
            | error fault =>
              rw [hexplore] at h
              cases h
            | ok result =>
              obtain ⟨code, l₂, heap₂⟩ := result
              rw [hexplore] at h
              simp only [ok_bind] at h
              split at h
              · cases h
              · rename_i hcode
                rw [not_not.mp hcode] at hexplore
                obtain ⟨below, h₂, hbelow⟩ := hexp _ _ _ _ _ h₁.2 hexplore
                obtain ⟨rest, h₃, hrest⟩ := ih l₂ heap₂ h₂.2 h
                refine ⟨_, extends_append (extends_append h₁ h₂) h₃, fun p hp => ?_⟩
                rcases List.mem_append.mp hp with hp | hp
                · rcases List.mem_append.mp hp with hp | hp
                  · rw [List.mem_singleton.mp hp]
                    exact List.prefix_append _ _
                  · exact (List.prefix_append _ _).trans (hbelow p hp)
                · exact hrest p hp
          · cases h
        · exact ih list _ hlist h

theorem explore_below (fs : FileSystem) (fuel : ℕ) (dir : Bytes) (list list' : DirectoryList)
    (heap heap' : Heap) (hlist : Ready list)
    (h : exploreDirectoryRecursive fs fuel dir list heap = .ok (0, list', heap')) :
    ∃ added, Extends list added list' ∧ ∀ p ∈ added, dir++separator dir <+: p := by
  induction fuel generalizing dir list list' heap heap' with
  | zero => cases h
  | succ fuel ih =>
    rw [exploreDirectoryRecursive] at h
    split at h
    · cases h
    · rename_i stream _
      refine read_entries_below fs (exploreDirectoryRecursive fs fuel) dir ?_ stream list list' heap
        heap' hlist h
      intro path l h₁ l' h₁' hl hexplore
      obtain ⟨added, hext, hadded⟩ := ih path l l' h₁ h₁' hl hexplore
      exact ⟨added, hext, fun p hp => (List.prefix_append _ _).trans (hadded p hp)⟩

def ErrorText (reply : Bytes) : Prop := text "ERRORE:" <+: reply

instance (reply : Bytes) : Decidable (ErrorText reply) :=
  inferInstanceAs (Decidable (text "ERRORE:" <+: reply))

/-- The text of an error is sent as it is, or replaced where it cannot be copied. -/
theorem strdup_error {message : Bytes} (hmessage : ErrorText message) (heap : Heap) :
    ErrorText ((strdup message heap).1.getD (text "ERRORE: Impossibile esplorare directory\n")) := by
  unfold strdup
  dsimp only
  split
  · exact hmessage
  · show text "ERRORE:" <+: _
    decide

/-- What comes of the exploration of a directory: the collected paths, or an
error that has a text or none. -/
theorem get_directories_text {fs : FileSystem} {fuel : ℕ} {path : Bytes} {heap heap' : Heap}
    {result : Option Bytes} (hdots : strstr path dotdot = false)
    (h : getDirectoriesRecursive fs fuel path heap = .ok (result, heap')) :
    collected fs fuel path heap = none ∧
        ErrorText (result.getD (text "ERRORE: Impossibile esplorare directory\n")) ∨
      ∃ paths, collected fs fuel path heap = some paths ∧
        result = some (paths.flatMap fun p => p++text "\n") ∧
        ∀ p ∈ paths, path++separator path <+: p := by
  unfold getDirectoriesRecursive at h
  unfold collected
  cases hdir : isDirectory fs path with
  | false =>
    rw [hdir, if_pos Bool.false_ne_true] at h
    cases h
    rw [hdots]
    exact Or.inl ⟨rfl, strdup_error (by decide) heap⟩
  | true =>
    rw [hdir, if_neg (not_not.mpr rfl)] at h
    rw [hdots]
    simp only [Bool.not_true, Bool.or_self, Bool.false_eq_true, if_false]
    rcases create_list_heap heap with ⟨heap₁, hcreate, -⟩ | ⟨heap₁, hcreate, -⟩
    · rw [hcreate] at h ⊢
      cases h
      exact Or.inl ⟨rfl, by decide⟩
    · rw [hcreate] at h ⊢
      dsimp only at h ⊢
      cases hexplore : exploreDirectoryRecursive fs fuel path ⟨[], 10⟩ heap₁ with
      | error fault =>
        rw [hexplore] at h
        cases h
      | ok explored =>
        obtain ⟨code, list', heap₂⟩ := explored
        rw [hexplore] at h
        simp only [ok_bind] at h
        dsimp only
        split at h
        · rename_i hcode
          cases h
          rw [if_pos hcode]
          exact Or.inl ⟨rfl, strdup_error (by decide) heap₂⟩
        · rename_i hcode
          rw [if_neg hcode]
          rw [not_not.mp hcode] at hexplore
          obtain ⟨added, hext, hadded⟩ := explore_below fs fuel path ⟨[], 10⟩ list' heap₁ heap₂
            ⟨by decide, by decide⟩ hexplore
          obtain ⟨result', heap₃, hstring, htext, -⟩ := to_string_heap list' heap₂
          rw [hstring] at h ⊢
          cases h
          rcases htext with rfl | rfl
          · exact Or.inl ⟨rfl, by decide⟩
          · refine Or.inr ⟨list'.paths, rfl, rfl, ?_⟩
            rw [hext.1]
            exact hadded

/-- What the server sends, whether it lists directories or reports an error. -/
theorem answer_text {fs : FileSystem} {fuel : ℕ} {path reply : Bytes} {heap heap' : Heap}
    (h : Server.answer (getDirectoriesRecursive fs fuel) path heap = .ok (reply, heap')) :
    collected fs fuel path heap = none ∧ ErrorText reply ∨
      ∃ paths, collected fs fuel path heap = some paths ∧
        reply = paths.flatMap (fun p => p++text "\n") ∧
        ∀ p ∈ paths, path++separator path <+: p := by
  unfold Server.answer at h
  cases hdots : strstr path dotdot with
  | true =>
    rw [hdots, if_pos rfl] at h
    cases h
    unfold collected
    rw [hdots]
    exact Or.inl ⟨rfl, by decide⟩
  | false =>
    rw [hdots, if_neg Bool.false_ne_true] at h
    cases hget : getDirectoriesRecursive fs fuel path heap with
    | error fault =>
      rw [hget] at h
      cases h
    | ok got =>
      obtain ⟨result, heap₁⟩ := got
      have hreply : reply = result.getD (text "ERRORE: Impossibile esplorare directory\n") := by
        rw [hget] at h
        cases result <;> cases h <;> rfl
      rcases get_directories_text hdots hget with ⟨hnone, herror⟩ | ⟨paths, hsome, hresult, hbelow⟩
      · exact Or.inl ⟨hnone, hreply ▸ herror⟩
      · refine Or.inr ⟨paths, hsome, ?_, hbelow⟩
        rw [hreply, hresult]
        rfl

theorem newline_text : text "\n" = [newline] := by decide

theorem error_no_newline : newline ∉ text "ERRORE:" := by decide

theorem lines_of_paths (paths : List Bytes) :
    paths.flatMap (fun p => p++text "\n") = LineChunks.lines newline id paths := by
  rw [newline_text]
  rfl

theorem error_first (first : Bytes) (rest : List Bytes) :
    ErrorText ((first::rest).flatMap fun p => p++text "\n") ↔ ErrorText first := by
  rw [List.flatMap_cons, newline_text, List.append_assoc]
  exact LineChunks.prefix_before error_no_newline first _

/-- A separator follows the request path in every path of the listing. -/
theorem error_request {path p : Bytes} (hne : path ≠ []) (h : path++separator path <+: p) :
    ErrorText p ↔ ErrorText path :=
  path_starts_iff (by decide) hne h

theorem display_error_iff (request reply : Bytes) :
    Client.display request reply = text "❌ "++reply ↔ ErrorText reply := by
  unfold Client.display
  by_cases hnil : reply = []
  · subst hnil
    rw [if_pos rfl]
    refine iff_of_false (fun heq => ?_) (by decide)
    have hlen := congrArg List.length heq
    have hmark : (text "❌ ").length = 4 := by decide
    have hlong : 4 < (text "(Nessuna directory trovata in '").length := by decide
    simp only [List.length_append, hmark, List.length_nil] at hlen
    omega
  · rw [if_neg hnil]
    split
    · rename_i hyes
      exact iff_of_true rfl ((Client.error_test reply).mp hyes)
    · rename_i hno
      refine iff_of_false (fun heq => ?_) fun herror => hno ((Client.error_test reply).mpr herror)
      have hlen := congrArg List.length heq
      have hmark : (text "❌ ").length = 4 := by decide
      rw [List.length_append, hmark] at hlen
      omega

/-- Splitting a listing at its newlines gives the collected paths exactly where
none of them contains a newline. A reply starts like an error, and is marked as
one on the screen, exactly where it is one or where the first collected path
starts so; that path does if and only if the request does. -/
theorem reply_text (fs : FileSystem) (fuel : ℕ) (path reply : Bytes) (heap heap' : Heap)
    (h : Server.answer (getDirectoriesRecursive fs fuel) path heap = .ok (reply, heap')) :
    (∀ paths, collected fs fuel path heap = some paths →
      (LineChunks.splitLines newline reply = paths ↔ ∀ p ∈ paths, newline ∉ p)) ∧
    (text "ERRORE:" <+: reply ↔ collected fs fuel path heap = none ∨
      ∃ first rest, collected fs fuel path heap = some (first::rest) ∧ text "ERRORE:" <+: first) ∧
    (path ≠ [] → ∀ first rest, collected fs fuel path heap = some (first::rest) →
      (text "ERRORE:" <+: first ↔ text "ERRORE:" <+: path)) ∧
    ∀ request, Client.display request reply = text "❌ "++reply ↔ text "ERRORE:" <+: reply := by
  refine ⟨?_, ?_, ?_, fun request => display_error_iff request reply⟩
  · intro paths hpaths
    rcases answer_text h with ⟨hnone, -⟩ | ⟨paths', hsome, hreply, -⟩
    · rw [hnone] at hpaths
      cases hpaths
    · rw [hsome] at hpaths
      cases hpaths
      rw [hreply, lines_of_paths]
      exact LineChunks.split_lines_iff _
  · rcases answer_text h with ⟨hnone, herror⟩ | ⟨paths, hsome, hreply, -⟩
    · exact iff_of_true herror (Or.inl hnone)
    · rw [hreply, hsome]
      cases paths with
      | nil => simp [show ¬ text "ERRORE:" <+: [] by decide]
      | cons first rest =>
        rw [show text "ERRORE:" <+: _ ↔ _ from error_first first rest]
        constructor
        · intro herror
          exact Or.inr ⟨first, rest, rfl, herror⟩
        · rintro (hnone | ⟨first', rest', hsame, herror⟩)
          · cases hnone
          · cases hsame
            exact herror
  · intro hne first rest hfirst
    rcases answer_text h with ⟨hnone, -⟩ | ⟨paths, hsome, -, hbelow⟩
    · rw [hnone] at hfirst
      cases hfirst
    · rw [hsome] at hfirst
      cases hfirst
      exact error_request hne (hbelow first (by simp))

def errorName : Name :=
  ⟨text "ERRORE:", by decide, by decide, by decide, by decide, by decide⟩

def splitName : Name :=
  ⟨text "a\nb", by decide, by decide, by decide, by decide, by decide⟩

theorem dir_stat_type : dirStat.type = .directory := rfl

def oddTree : DirTree :=
  .dir dirStat dir_stat_type [(errorName, .dir dirStat dir_stat_type [(splitName, emptyDir)])]

def oddHost : Host := ⟨oddTree, [oddTree]⟩

theorem odd_answer :
    Server.answer (getDirectoriesRecursive oddHost.fileSystem 3) (text "ERRORE:") alwaysSucceeds =
      .ok (text "ERRORE:/a\nb\n", alwaysSucceeds) := by
  rfl

theorem odd_reply_text :
    text "ERRORE:" <+: text "ERRORE:/a\nb\n" ↔
      collected oddHost.fileSystem 3 (text "ERRORE:") alwaysSucceeds = none ∨
      ∃ first rest, collected oddHost.fileSystem 3 (text "ERRORE:") alwaysSucceeds =
        some (first::rest) ∧ text "ERRORE:" <+: first :=
  (reply_text oddHost.fileSystem 3 (text "ERRORE:") _ alwaysSucceeds alwaysSucceeds
    odd_answer).2.1

/-- One directory is listed. Its line splits in two, starts like an error and is
shown as one. -/
theorem odd_reply_misread :
    (Server.answer (getDirectoriesRecursive oddHost.fileSystem 3) (text "ERRORE:")
      alwaysSucceeds).toOption.map Prod.fst = some (text "ERRORE:/a\nb\n") ∧
    collected oddHost.fileSystem 3 (text "ERRORE:") alwaysSucceeds =
      some [text "ERRORE:/a\nb"] ∧
    LineChunks.splitLines newline (text "ERRORE:/a\nb\n") = [text "ERRORE:/a", text "b"] ∧
    Client.display (text "ERRORE:") (text "ERRORE:/a\nb\n") = text "❌ ERRORE:/a\nb\n" := by
  decide +kernel

end ProgSistema.DirectoryServer
