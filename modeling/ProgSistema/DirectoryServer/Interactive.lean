import ProgSistema.DirectoryServer.EndToEnd
import ProgSistema.Lib.LineChunks
import ProgSistema.Lib.Runs
import ProgSistema.Lib.Stdin

/-!
# The interactive mode of the client

After the connection has been made the client reads its input in pieces that fit
in its buffer, and takes each piece for a path. A line that does not fit comes in
several pieces.
-/

set_option autoImplicit false

namespace ProgSistema.DirectoryServer
open CRuntime StreamSocket LineChunks

namespace Client

/-- `line` counts the newlines read so far, and each request is kept with the
count before its piece was read; both only record what happens. -/
structure Session where
  running : Bool
  stdin : Bytes
  sock : Socket
  output : Bytes
  line : ℕ
  requests : List (ℕ × Bytes)

def displayInteractive (path response : Bytes) : Bytes :=
  text "\n📂 === DIRECTORY RICORSIVE IN '"++path++text "' ===\n"++
    (if response = [] then text "(Nessuna directory trovata)\n" else response)++
    text "========================================\n\n"

def Session.print (s : Session) (line : Bytes) : Session := { s with output := s.output++line }

def Session.stop (s : Session) (line : Bytes) : Session :=
  { s with running := false, output := s.output++line }

def request (path : Bytes) (s : Session) : Session :=
  let (sent, sock) := sendMessage s.sock path
  let s := { s with sock := sock }
  if sent < 0 then s.stop (text "❌ Errore comunicazione con server\n")
  else
    let (received, response, sock) := receiveMessage bufferSize s.sock
    let s := { s with sock := sock }
    if received < 0 then s.stop (text "❌ Errore ricezione risposta\n")
    else s.print (displayInteractive path (cstr response))

def isQuit (path : Bytes) : Bool := path = text "quit" || path = text "exit"

def handlePath (line : ℕ) (path : Bytes) (s : Session) : Session :=
  if isQuit path then s.stop (text "👋 Arrivederci!\n")
  else if path = [] then s.print (text "⚠️  Path vuoto, riprova\n")
  else if !validatePath path then s.print (text "⚠️  Path non valido, riprova\n")
  else request path { s with requests := s.requests++[(line, path)] }

/-- `path_input[strcspn(path_input, "\n")] = 0` on the string in the buffer. -/
def pathInput (buffer : Bytes) : Bytes := (cstr buffer).takeWhile (· ≠ 10)

/-- One round of the loop; `none` after its end. -/
def iteration (s : Session) : Option Session :=
  if s.running then
    match fgets maxPathLength s.stdin with
    | none => some (s.stop (text "\n🔚 Input terminato (EOF)\n"))
    | some (buffer, stdin) =>
      some (handlePath s.line (pathInput buffer)
        { s with stdin := stdin, line := s.line+buffer.count 10 })
  else none

def interactiveLoop : ℕ → Session → Except Fault Session
  | 0, _ => .error .outOfFuel
  | fuel+1, s =>
    match iteration s with
    | none => .ok s
    | some s => interactiveLoop fuel s

end Client

open Client

def requested (path : Bytes) : Bool := !isQuit path && validatePath path

theorem request_keeps (path : Bytes) (s : Session) : (request path s).stdin = s.stdin ∧
    (request path s).line = s.line ∧ (request path s).requests = s.requests := by
  unfold request
  dsimp only
  split
  · exact ⟨rfl, rfl, rfl⟩
  · split
    · exact ⟨rfl, rfl, rfl⟩
    · exact ⟨rfl, rfl, rfl⟩

theorem handle_path_keeps (line : ℕ) (path : Bytes) (s : Session) :
    (handlePath line path s).stdin = s.stdin ∧ (handlePath line path s).line = s.line ∧
      (handlePath line path s).requests =
        if requested path then s.requests++[(line, path)] else s.requests := by
  unfold handlePath requested
  by_cases hquit : isQuit path = true
  · simp [hquit, Session.stop]
  by_cases hnil : path = []
  · subst hnil
    simp [hquit, validatePath, Session.print]
  by_cases hvalid : validatePath path = true
  · simpa [hquit, hnil, hvalid] using request_keeps path _
  · simp [hquit, hnil, hvalid, Session.print]

theorem path_input_part {part : Bytes} (hnul : 0 ∉ part) (hclean : 10 ∉ part) :
    pathInput part = part ∧ pathInput (part++[10]) = part := by
  have hline : part.takeWhile (· ≠ 10) = part := by
    rw [List.takeWhile_eq_self_iff]
    intro c hc
    have hne : c ≠ 10 := fun h => hclean (h ▸ hc)
    simpa using hne
  constructor
  · rw [pathInput, cstr_of_no_nul _ hnul, hline]
  · have hnul' : 0 ∉ part++[10] := by simpa using hnul
    rw [pathInput, cstr_of_no_nul _ hnul', List.takeWhile_append, hline]
    simp

/-- A round before the end of the input reads a part of the line that it is in, up
to its newline if it comes to that. -/
theorem iteration_reads {s t : Session} (hnul : 0 ∉ s.stdin) (hmore : s.stdin ≠ [])
    (h : iteration s = some t) : ∃ part, 10 ∉ part ∧ part.length < maxPathLength ∧
      t.requests = (if requested part then s.requests++[(s.line, part)] else s.requests) ∧
      (s.stdin = part++10::t.stdin ∧ t.line = s.line+1 ∨
        s.stdin = part++t.stdin ∧ t.line = s.line ∧
          (part.length+1 = maxPathLength ∨ t.stdin = [])) ∧
      (fgets maxPathLength s.stdin).map (fun r => pathInput r.1) = some part := by
  have hget : fgets maxPathLength s.stdin = some (readUpTo (maxPathLength-1) s.stdin) :=
    if_neg hmore
  obtain ⟨part, hclean, hlength, hread⟩ := read_up_to_spec (maxPathLength-1) s.stdin
  generalize readUpTo (maxPathLength-1) s.stdin = read at hget hread
  obtain ⟨buffer, rest⟩ := read
  have hrunning : s.running = true := by
    by_contra hstopped
    rw [iteration, if_neg hstopped] at h
    cases h
  rw [iteration, if_pos hrunning, hget] at h
  dsimp only at h hread
  have hnul' : 0 ∉ part := by
    intro hmem
    rcases hread with ⟨-, hsplit⟩ | ⟨-, hsplit, -⟩
    · exact hnul (hsplit ▸ List.mem_append_left _ hmem)
    · exact hnul (hsplit ▸ List.mem_append_left _ hmem)
  obtain ⟨hpart, hpartLine⟩ := path_input_part hnul' hclean
  have hpath : pathInput buffer = part := by
    rcases hread with ⟨hbuffer, -⟩ | ⟨hbuffer, -⟩
    · rw [hbuffer, hpartLine]
    · rw [hbuffer, hpart]
  rw [hpath] at h
  obtain ⟨hstdin, hline, hrequests⟩ := handle_path_keeps s.line part
    { s with stdin := rest, line := s.line+buffer.count 10 }
  rw [Option.some.inj h] at hstdin hline hrequests
  dsimp only at hstdin hline hrequests
  refine ⟨part, hclean, Nat.lt_of_le_pred (by decide) hlength, hrequests, ?_, ?_⟩
  · rcases hread with ⟨hbuffer, hsplit⟩ | ⟨hbuffer, hsplit, hend⟩
    · left
      refine ⟨by rw [hstdin]; exact hsplit, ?_⟩
      rw [hline, hbuffer, List.count_append, List.count_eq_zero_of_not_mem hclean]
      rfl
    · right
      refine ⟨by rw [hstdin]; exact hsplit, ?_, ?_⟩
      · rw [hline, hbuffer, List.count_eq_zero_of_not_mem hclean, add_zero]
      · rw [hstdin]
        refine hend.imp_left fun hfull => ?_
        rw [hfull]
        rfl
  · rw [hget, Option.map_some, hpath]

theorem iteration_at_end {s : Session} (hrunning : s.running = true) (hend : s.stdin = []) :
    iteration s = some (s.stop (text "\n🔚 Input terminato (EOF)\n")) := by
  have hget : fgets maxPathLength s.stdin = none := if_pos hend
  rw [iteration, if_pos hrunning, hget]

theorem iteration_stopped {s : Session} (h : s.running = false) : iteration s = none := by
  rw [iteration, if_neg (by simp [h])]

/-- The loop ends: each round reads something or is the last one. -/
theorem loop_ends (s : Session) (hnul : 0 ∉ s.stdin) {fuel : ℕ} (hfuel : s.stdin.length+1 < fuel) :
    ∃ rounds t, interactiveLoop fuel s = .ok t ∧
      Runs.exec (fun _ : Unit => iteration) rounds s = some t ∧ t.running = false := by
  induction fuel generalizing s with
  | zero => omega
  | succ fuel ih =>
    rw [interactiveLoop]
    by_cases hrunning : s.running = true
    · by_cases hend : s.stdin = []
      · obtain ⟨fuel, rfl⟩ : ∃ k, fuel = k+1 := ⟨fuel-1, by omega⟩
        refine ⟨[()], s.stop (text "\n🔚 Input terminato (EOF)\n"), ?_, ?_, rfl⟩
        · rw [iteration_at_end hrunning hend]
          dsimp only
          rw [interactiveLoop, iteration_stopped rfl]
        · rw [Runs.exec, iteration_at_end hrunning hend]
          rfl
      · obtain ⟨t, ht⟩ : ∃ t, iteration s = some t := by
          rw [iteration, if_pos hrunning, fgets, if_neg hend]
          exact ⟨_, rfl⟩
        obtain ⟨part, -, -, -, hread, -⟩ := iteration_reads hnul hend ht
        have hpos : 0 < s.stdin.length := List.length_pos_iff.mpr hend
        have hshorter : t.stdin.length < s.stdin.length := by
          rcases hread with ⟨hsplit, -⟩ | ⟨hsplit, -, hfull | hnil⟩
          · rw [hsplit, List.length_append, List.length_cons]
            omega
          · have hlong : 512 = part.length+1 := hfull.symm
            rw [hsplit, List.length_append]
            omega
          · rw [hnil]
            exact hpos
        have hclean : 0 ∉ t.stdin := by
          intro hmem
          rcases hread with ⟨hsplit, -⟩ | ⟨hsplit, -⟩
          · exact hnul (hsplit ▸ List.mem_append_right _ (List.mem_cons_of_mem _ hmem))
          · exact hnul (hsplit ▸ List.mem_append_right _ hmem)
        obtain ⟨rounds, u, hloop, hexec, hstopped⟩ := ih t hclean (by omega)
        refine ⟨()::rounds, u, ?_, ?_, hstopped⟩
        · rw [ht]
          exact hloop
        · rw [Runs.exec, ht]
          exact hexec
    · have hstopped := Bool.eq_false_iff.mpr hrunning
      rw [iteration_stopped hstopped]
      exact ⟨[], s, rfl, rfl, hstopped⟩

end ProgSistema.DirectoryServer
