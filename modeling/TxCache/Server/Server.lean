import TxCache.Server.Put
import TxCache.Client.Client

/-!
# The cache server's lookup handler

`HandleLookup` reads a key, the bounds of the requested interval, the client's earliest pin and the
lookup policy, asks `Store_Lookup`, and sends back what it found: the entry's data, its interval
and its tags. An entry that is still valid is known to stay valid up to the store's clock
`lastInvalTime`, so when its upper end lies below the clock the clock is sent in its place. The
reply is what `Client_TryEnterCacheable` receives (`LookupReply`).
-/

namespace TxCache

namespace Store

variable (st : Store)

/-- The interval `HandleLookup` sends for an entry. -/
def replyInterval (e : Entry) : Interval :=
  { e.interval with
    upper := if e.interval.stillValid ∧ e.interval.upper < st.lastInvalTime then st.lastInvalTime
      else e.interval.upper }

/-- `HandleLookup`: the requested interval is never still valid. -/
def handleLookup (key : List UInt8) (lower upper earliestPin : ℕ) (policy : StoreLookupPolicyId) :
    Store × Option LookupReply :=
  let (st', entry) := st.lookup key ⟨lower, upper, false⟩ earliestPin policy
  (st', entry.map fun e ↦ ⟨e.data, st'.replyInterval e, e.invalTags⟩)

end Store

end TxCache
