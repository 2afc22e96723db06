import Mailo.Domain.Remote
import Mailo.Domain.Threading.Partition

/-!
# A batch assembled onto what is held

A batch is threaded together and onto the conversations its ids are known in. The store answers
for the ids the batch names and for nothing more, and what it holds keeps the thread it was given.
-/

namespace Mailo.Runtime

open Domain Domain.Threading Library

/-- What a message's bytes say to threading. An id read of one is normalized. -/
structure Parsed where
  rfcMessageId : Option (List Char)
  inReplyTo : Option (List Char)
  references : List (List Char)
  subject : List Char
  normalized : ∀ id, rfcMessageId = some id → normalizeId id = id ∧ id ≠ []
deriving DecidableEq

/-- A message of a batch: what it parses to, and where a server holds it. -/
structure Gather where
  remote : Option RemoteRef
  parsed : Parsed
deriving DecidableEq

/-- What the store keeps of a message that threading asks about. -/
structure Filed where
  rfcMessageId : Option (List Char)
  thread : ThreadId
  remote : Option RemoteRef
deriving DecidableEq

/-- An account's messages, and the thread ids its server gave their addresses. -/
structure Shelf where
  messages : List Filed
  providerThread : RemoteRef → Option (List Char)

/-- Which of several rows a `LIMIT 1` with no order gives. -/
class LimitOne where
  pick : List ThreadId → Option ThreadId
  pick_mem : ∀ {rows tid}, pick rows = some tid → tid ∈ rows
  pick_some : ∀ {rows}, rows ≠ [] → pick rows ≠ none

namespace Shelf

/-- The thread id the server gave the message at `remote`: only an address with a UID has one. -/
def providerThreadOf (shelf : Shelf) : RemoteRef → Option (List Char)
  | .imap mailbox uidvalidity uid => shelf.providerThread (.imap mailbox uidvalidity uid)
  | _ => none

def providerOf (shelf : Shelf) (filed : Filed) : Option (List Char) :=
  filed.remote.bind shelf.providerThreadOf

variable [LimitOne]

def threadByRfcId (shelf : Shelf) (id : List Char) : Option ThreadId :=
  LimitOne.pick ((shelf.messages.filter fun filed => filed.rfcMessageId = some id).map Filed.thread)

def threadByProviderThread (shelf : Shelf) (thrid : List Char) : Option ThreadId :=
  LimitOne.pick ((shelf.messages.filter fun filed => shelf.providerOf filed = some thrid).map
    Filed.thread)

end Shelf

/-- What was answered to each question, where it was answered. -/
def answers {κ α : Type} [DecidableEq κ] (answer : κ → Option α) (asked : List κ) : Table κ α :=
  asked.foldl (fun table key =>
    match answer key with
    | some value => table.set key value
    | none => table) .empty

structure ThreadIndex where
  byRfcId : Table (List Char) ThreadId
  byProvider : Table (List Char) ThreadId
  providerOf : Table RemoteRef (List Char)

/-- What threading asks: a `Message-ID`, or the key of a server's thread id. -/
def ThreadIndex.known (index : ThreadIndex) (id : List Char) : Option ThreadId :=
  match Text.stripPrefix providerPrefix id with
  | some thrid => index.byProvider.get thrid
  | none => index.byRfcId.get id

def rfcIdsAsked (batch : List Parsed) : List (List Char) :=
  batch.foldl (fun ids parsed =>
    (parsed.rfcMessageId.toList ++ parsed.inReplyTo.toList ++ parsed.references).foldl
      (fun ids raw =>
        let id := normalizeId raw
        if !id.isEmpty && !ids.contains id then ids ++ [id] else ids) ids) []

def threadIndex [LimitOne] (shelf : Shelf) (batch : List Gather) : ThreadIndex :=
  let providerOf := answers shelf.providerThreadOf (batch.filterMap Gather.remote)
  { byRfcId := answers shelf.threadByRfcId (rfcIdsAsked (batch.map Gather.parsed))
    byProvider := answers shelf.threadByProviderThread providerOf.values.eraseDups
    providerOf := providerOf }

def Gather.input (item : Gather) (provider : Option (List Char)) : ThreadInput :=
  ⟨item.parsed.rfcMessageId, item.parsed.inReplyTo, item.parsed.references, item.parsed.subject,
    provider⟩

def assemble [LimitOne] (shelf : Shelf) (fresh : Nat → ThreadId) (batch : List Gather) : Shelf :=
  let index := threadIndex shelf batch
  let inputs := batch.map fun item => item.input (item.remote.bind index.providerOf.get)
  let threads := threadWith inputs index.known fresh
  { shelf with
    messages := shelf.messages ++ (batch.zip threads).map fun row =>
      ⟨row.1.parsed.rfcMessageId, row.2, row.1.remote⟩ }

def assembleAll [LimitOne] (fresh : Nat → Nat → ThreadId) (n : Nat) (shelf : Shelf) :
    List (List Gather) → Shelf
  | [] => shelf
  | batch :: rest => assembleAll fresh (n + 1) (assemble shelf (fresh n) batch) rest

theorem get_answers {κ α : Type} [DecidableEq κ] (answer : κ → Option α) (asked : List κ)
    (key : κ) : (answers answer asked).get key = if key ∈ asked then answer key else none := by
  have hfold : ∀ (rest : List κ) (table : Table κ α), (rest.foldl (fun table key =>
      match answer key with
      | some value => table.set key value
      | none => table) table).get key =
        if key ∈ rest ∧ answer key ≠ none then answer key else table.get key := by
    intro rest
    induction rest with
    | nil => intro table; simp
    | cons other rest ih =>
      intro table
      rw [List.foldl_cons, ih]
      by_cases hsome : answer key = none
      · rw [if_neg (by simp [hsome]), if_neg (by simp [hsome])]
        split
        · rename_i value hvalue
          rw [Table.get_set, if_neg]
          rintro rfl
          rw [hsome] at hvalue
          cases hvalue
        · rfl
      · by_cases hrest : key ∈ rest
        · rw [if_pos ⟨hrest, hsome⟩, if_pos ⟨.tail _ hrest, hsome⟩]
        · rw [if_neg (by simp [hrest])]
          by_cases hkey : key = other
          · subst hkey
            rw [if_pos ⟨List.mem_cons_self, hsome⟩]
            split
            · rename_i value hvalue
              rw [Table.get_set, if_pos rfl, hvalue]
            · rename_i hnone
              exact absurd hnone hsome
          · rw [if_neg (by simp [hkey, hrest])]
            split
            · rw [Table.get_set, if_neg hkey]
            · rfl
  unfold answers
  rw [hfold, Table.get_empty]
  by_cases hmem : key ∈ asked
  · rw [if_pos hmem]
    split
    · rfl
    · rename_i hnot
      rw [not_and, not_not] at hnot
      rw [hnot hmem]
  · rw [if_neg hmem, if_neg (by simp [hmem])]

theorem mem_values_answers {κ α : Type} [DecidableEq κ] {answer : κ → Option α} {asked : List κ}
    {value : α} : value ∈ (answers answer asked).values ↔
      ∃ key ∈ asked, answer key = some value := by
  unfold Table.values
  rw [List.mem_map]
  constructor
  · rintro ⟨⟨key, found⟩, hrow, rfl⟩
    have hget := Table.mem_rows.mp hrow
    rw [get_answers] at hget
    split at hget
    · rename_i hmem
      exact ⟨key, hmem, hget⟩
    · cases hget
  · rintro ⟨key, hmem, hanswer⟩
    refine ⟨(key, value), Table.mem_rows.mpr ?_, rfl⟩
    rw [get_answers, if_pos hmem, hanswer]

end Mailo.Runtime
