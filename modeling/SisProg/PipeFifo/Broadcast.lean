import Mathlib.Data.List.Nodup
import SisProg.PipeFifo.Chat

/-!
# What the clients of the chat server hear

A chat room: a client joins, and from then on it hears what the others say, until it
leaves. `Room` is that and nothing else; it reads who joins, speaks and leaves off the
calls of `accept` and `recv`, and knows neither `master` nor `fd_max`.

`broadcast_exact` says that the loop of `chat.c` is such a room, whatever the kernel
answers and whichever numbers it uses again: the inner loop calls `send` once for each
client that is connected and is not the one that spoke, so what the clients have got is
what they would have heard.

The run may begin with any clients connected; `main` begins with none.
-/

namespace SisProg.PipeFifo

open Selector

/-! ## The room -/

/-- How many clients have joined, which of them is behind a descriptor, and what each has
heard from each. -/
structure Room where
  joined : Nat
  behind : Nat → Option Nat
  heard : Nat → Nat → Bytes

namespace Room

/-- The client `c` has joined and not left. -/
def Present (r : Room) (c : Nat) : Prop := ∃ fd, r.behind fd = some c

open Classical in
/-- A client joins, speaks to all the others, or leaves. -/
noncomputable def on (r : Room) : ChatAct → Room
  | .accept _ (some newFd) =>
      { r with joined := r.joined + 1, behind := Function.update r.behind newFd (some r.joined) }
  | .recv i (.chunk buf) =>
      { r with
        heard := fun c d =>
          r.heard c d ++ if r.behind i = some d ∧ r.Present c ∧ c ≠ d then buf else [] }
  | .recv i _ => { r with behind := Function.update r.behind i none }
  | _ => r

theorem heard_on_chunk {r : Room} {i c d : Nat} {buf : Bytes} (hi : r.behind i = some d)
    (hc : r.Present c) (hne : c ≠ d) :
    (r.on (.recv i (.chunk buf))).heard c d = r.heard c d ++ buf := by
  simp [on, hi, hc, hne]

theorem heard_on_chunk_of_not {r : Room} {i c d : Nat} {buf : Bytes}
    (h : ¬ (r.behind i = some d ∧ r.Present c ∧ c ≠ d)) :
    (r.on (.recv i (.chunk buf))).heard c d = r.heard c d := by
  simp [on, h]

/-- The room after a run. -/
noncomputable def after (r : Room) (as : List ChatAct) : Room := as.foldl Room.on r

theorem after_snoc (r : Room) (as : List ChatAct) (a : ChatAct) :
    r.after (as ++ [a]) = (r.after as).on a := by
  simp [after]

end Room

/-- The kernel's side, as a room. -/
def Kernel.room (k : Kernel) : Room := ⟨k.accepted, k.client, k.heard⟩

/-! ## The calls of `send` -/

/-- No two descriptors have the same client, and clients have the numbers of accepted
ones. -/
structure Kernel.Numbered (k : Kernel) : Prop where
  inj : ∀ fd fd' c, k.client fd = some c → k.client fd' = some c → fd = fd'
  lt_accepted : ∀ fd c, k.client fd = some c → c < k.accepted

theorem Kernel.Numbered.accept {k : Kernel} (h : k.Numbered) (newFd : Nat) :
    (k.accept newFd).Numbered := by
  have hnew : ∀ fd, k.client fd ≠ some k.accepted :=
    fun fd hfd => Nat.lt_irrefl _ (h.lt_accepted fd _ hfd)
  refine ⟨?_, ?_⟩
  · intro fd fd' c hfd hfd'
    simp only [Kernel.accept, Function.update_apply] at hfd hfd'
    split at hfd
    · next heq =>
      obtain rfl : k.accepted = c := by simpa using hfd
      split at hfd'
      · next heq' => rw [heq, heq']
      · exact absurd hfd' (hnew fd')
    · split at hfd'
      · obtain rfl : k.accepted = c := by simpa using hfd'
        exact absurd hfd (hnew fd)
      · exact h.inj fd fd' c hfd hfd'
  · intro fd c hfd
    simp only [Kernel.accept, Function.update_apply] at hfd
    split at hfd
    · obtain rfl : k.accepted = c := by simpa using hfd
      exact Nat.lt_succ_self _
    · exact Nat.lt_succ_of_lt (h.lt_accepted fd c hfd)

theorem Kernel.Numbered.close {k : Kernel} (h : k.Numbered) (i : Nat) : (k.close i).Numbered := by
  have hclient : ∀ fd c, (k.close i).client fd = some c → k.client fd = some c := by
    intro fd c hfd
    simp only [Kernel.close, Function.update_apply] at hfd
    split at hfd
    · cases hfd
    · exact hfd
  exact ⟨fun fd fd' c hfd hfd' => h.inj fd fd' c (hclient fd c hfd) (hclient fd' c hfd'),
    fun fd c hfd => h.lt_accepted fd c (hclient fd c hfd)⟩

theorem heard_send (buf : Bytes) (i j c d : Nat) (k : Kernel) :
    (k.send buf i j).heard c d =
      k.heard c d ++ if k.client i = some d ∧ k.client j = some c then buf else [] := by
  unfold Kernel.send Kernel.heard
  cases hj : k.client j with
  | none => simp
  | some e =>
    by_cases h : k.client i = some d ∧ e = c <;> simp [List.filter_append, h]

/-- A client that is behind none of the descriptors `js` gets nothing. -/
theorem heard_sends_of_not {k : Kernel} {js : List Nat} {buf : Bytes} {i c d : Nat}
    (h : ∀ j ∈ js, ¬ (k.client i = some d ∧ k.client j = some c)) :
    (js.foldl (Kernel.send buf i) k).heard c d = k.heard c d := by
  induction js generalizing k with
  | nil => rfl
  | cons j js ih =>
    rw [List.foldl_cons, ih, heard_send, if_neg (h j List.mem_cons_self), List.append_nil]
    intro j' hj'
    rw [Kernel.send_client]
    exact h j' (List.mem_cons_of_mem j hj')

/-- A client that is behind one of them gets the chunk once. -/
theorem heard_sends_of_mem {k : Kernel} {js : List Nat} {buf : Bytes} {i j c d : Nat}
    (hi : k.client i = some d) (hj : k.client j = some c) (hmem : j ∈ js) (hjs : js.Nodup)
    (huniq : ∀ j', k.client j' = some c → j' = j) :
    (js.foldl (Kernel.send buf i) k).heard c d = k.heard c d ++ buf := by
  induction js generalizing k with
  | nil => cases hmem
  | cons j' js ih =>
    obtain ⟨hnot, hjs⟩ := List.nodup_cons.mp hjs
    rw [List.foldl_cons]
    rcases List.mem_cons.mp hmem with rfl | hmem
    · rw [heard_sends_of_not, heard_send, if_pos ⟨hi, hj⟩]
      rintro j' hj' ⟨-, hclient⟩
      rw [Kernel.send_client] at hclient
      rw [huniq j' hclient] at hj'
      exact hnot hj'
    · have hne : k.client j' ≠ some c := by
        intro hclient
        rw [huniq j' hclient] at hnot
        exact hnot hmem
      rw [ih (by simpa using hi) (by simpa using hj) hmem hjs (by simpa using huniq), heard_send,
        if_neg fun h => hne h.2, List.append_nil]

/-! ## The recipients -/

theorem nodup_recipients (s : Chat) (i : Nat) : (s.recipients i).Nodup :=
  List.nodup_range.filter _

/-- The recipients are the clients that are connected, without the one that spoke. -/
theorem mem_recipients {s : Chat} (h : s.Serving) {i j : Nat} :
    j ∈ s.recipients i ↔ j ≠ i ∧ s.kernel.Connected j := by
  simp only [Chat.recipients, List.mem_filter, List.mem_range, decide_eq_true_eq,
    h.watching.mem_iff]
  constructor
  · rintro ⟨-, hmem, hl, hne⟩
    exact ⟨hne, hmem.resolve_left hl⟩
  · rintro ⟨hne, hconn⟩
    have hl : j ≠ s.listener := by
      rintro rfl
      exact h.watching.listener hconn
    have hle := h.watching.le_fdMax j ((h.watching.mem_iff j).mpr (.inr hconn))
    exact ⟨Nat.lt_succ_of_le hle, .inr hconn, hl, hne⟩

/-- One chunk: the other clients hear it, and nobody else does. -/
theorem heard_broadcast {s : Chat} {i : Nat} {buf : Bytes} (h : s.Serving)
    (hn : s.kernel.Numbered) :
    ((s.recipients i).foldl (Kernel.send buf i) s.kernel).room =
      s.kernel.room.on (.recv i (.chunk buf)) := by
  obtain ⟨-, hclient, haccepted⟩ := s.kernel.sends_frame buf i (s.recipients i)
  have hheard : ∀ c d, ((s.recipients i).foldl (Kernel.send buf i) s.kernel).heard c d =
      (s.kernel.room.on (.recv i (.chunk buf))).heard c d := by
    intro c d
    by_cases hsay : s.kernel.client i = some d ∧ s.kernel.room.Present c ∧ c ≠ d
    · obtain ⟨hi, hc, hcd⟩ := hsay
      obtain ⟨j, hj⟩ := hc
      have hne : j ≠ i := by
        rintro rfl
        exact hcd (Option.some.inj (hj.symm.trans hi))
      have hmem : j ∈ s.recipients i :=
        (mem_recipients h).mpr ⟨hne, Option.isSome_iff_exists.mpr ⟨c, hj⟩⟩
      rw [Room.heard_on_chunk hi ⟨j, hj⟩ hcd]
      exact heard_sends_of_mem hi hj hmem (nodup_recipients s i) fun j' hj' =>
        hn.inj j' j c hj' hj
    · rw [Room.heard_on_chunk_of_not hsay]
      refine heard_sends_of_not ?_
      rintro j hj ⟨hi, hc⟩
      refine hsay ⟨hi, ⟨j, hc⟩, ?_⟩
      rintro rfl
      exact ((mem_recipients h).mp hj).1 (hn.inj j i c hc hi)
  have hall : ((s.recipients i).foldl (Kernel.send buf i) s.kernel).heard =
      (s.kernel.room.on (.recv i (.chunk buf))).heard :=
    funext fun c => funext fun d => hheard c d
  unfold Kernel.room
  rw [haccepted, hclient, hall]
  rfl

/-! ## Every run -/

/-- The loop serves clients that the kernel has numbered. -/
structure Chat.Hosting (s : Chat) : Prop where
  serving : s.Serving
  numbered : s.kernel.Numbered

theorem hosting_init {s : Chat} (h : s.Init) : s.Hosting :=
  ⟨serving_init h, ⟨fun fd fd' c hfd => by simp [h.client] at hfd,
    fun fd c hfd => by simp [h.client] at hfd⟩⟩

theorem numbered_next {s : Chat} {a : ChatAct} (h : s.kernel.Numbered) :
    (s.next a).kernel.Numbered := by
  cases a with
  | select r => cases r <;> exact h
  | skip i | scanned i => exact h
  | accept i r =>
    cases r with
    | none => exact h
    | some newFd => exact h.accept newFd
  | recv i r =>
    cases r with
    | hungUp | error => exact h.close i
    | chunk buf =>
      obtain ⟨-, hclient, haccepted⟩ := s.kernel.sends_frame buf i (s.recipients i)
      exact ⟨by simpa [Chat.next, hclient] using h.inj,
        by simpa [Chat.next, hclient, haccepted] using h.lt_accepted⟩

theorem hosting_of_exec {s t : Chat} {as : List ChatAct} (h : chat.Exec s as t)
    (hs : s.Hosting) : t.Hosting :=
  h.induct hs fun _ _ hs he => ⟨serving_next hs.serving he, numbered_next hs.numbered⟩

/-- A step of the loop is a step of the room. -/
theorem room_next {s : Chat} {a : ChatAct} (h : s.Hosting) :
    (s.next a).kernel.room = s.kernel.room.on a := by
  cases a with
  | select r => cases r <;> rfl
  | skip i | scanned i => rfl
  | accept i r => cases r <;> rfl
  | recv i r =>
    cases r with
    | hungUp | error => rfl
    | chunk buf => exact heard_broadcast h.serving h.numbered

/-- The loop refines the room. -/
theorem room_of_exec {s t : Chat} {as : List ChatAct} (hs : s.Hosting)
    (h : chat.Exec s as t) : t.kernel.room = s.kernel.room.after as := by
  induction h with
  | nil => rfl
  | snoc hrun _ ih =>
    rw [Room.after_snoc, ← ih]
    exact room_next (hosting_of_exec hrun hs)

/-- Each chunk is sent once to each client that is connected at that moment and is not the
one it came from, and to nobody else; and so every client has got from every other what it
said while both were connected, in order. -/
theorem broadcast_exact {s t : Chat} {as : List ChatAct} (hs : s.Hosting)
    (h : chat.Exec s as t) :
    (∀ bs i buf cs u, as = bs ++ .recv i (.chunk buf) :: cs → chat.Exec s bs u →
      ((s.kernel.room.after bs).behind i).isSome = true ∧ (u.recipients i).Nodup ∧
      (∀ j, j ∈ u.recipients i ↔ j ≠ i ∧ ((s.kernel.room.after bs).behind j).isSome = true) ∧
      u.listener ∉ u.recipients i) ∧
    ∀ c d, t.kernel.heard c d = (s.kernel.room.after as).heard c d := by
  refine ⟨?_, ?_⟩
  · rintro bs i buf cs u rfl hu
    obtain ⟨v, hv, he, -⟩ := h.enabled_of_cons
    obtain rfl := hu.unique hv
    have hserving := (hosting_of_exec hu hs).serving
    rw [← room_of_exec hs hu]
    refine ⟨connected_of_recv hserving he, nodup_recipients u i, fun j => mem_recipients hserving, ?_⟩
    intro hmem
    exact hserving.watching.listener ((mem_recipients hserving).mp hmem).2
  · intro c d
    rw [← room_of_exec hs h]
    rfl

/-- The run of `secondClient`, after which the first client speaks again. The second one
now has the largest descriptor, which the scan never meets, but it hears. -/
def spoken : List ChatAct :=
  .select (some {3, 4}) :: secondClient ++
    .select (some {4}) :: [.skip 0, .skip 1, .skip 2, .skip 3, .recv 4 (.chunk [66]), .scanned 5]

theorem Chat.oneClient_hosting : Chat.oneClient.Hosting := by
  refine ⟨Chat.oneClient_serving, ?_, ?_⟩
  · intro fd fd' c hfd hfd'
    simp only [Chat.oneClient] at hfd hfd'
    split at hfd
    · next h =>
      split at hfd'
      · next h' => rw [h, h']
      · cases hfd'
    · cases hfd
  · intro fd c hfd
    simp only [Chat.oneClient] at hfd
    split at hfd
    · obtain rfl : 0 = c := by simpa using hfd
      exact Nat.zero_lt_one
    · cases hfd

theorem spoken_runs : (chat.run .oneClient spoken).isSome := by
  decide

theorem broadcast_exact_spoken :
    (Chat.oneClient.kernel.room.after spoken).heard 1 0 = [65, 66] := by
  have h := (broadcast_exact Chat.oneClient_hosting (Machine.exec_run_get spoken_runs)).2 1 0
  rw [← h]
  decide

end SisProg.PipeFifo
