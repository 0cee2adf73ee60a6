-- The script of a campaign. On its first run it notes when it was created,
-- finds out when the window closes, and sleeps until then. When it wakes it
-- pays its whole balance to the awardee if the goal is reached. Otherwise it
-- walks through the transactions received before the window closed and pays
-- each payment back. What is left goes to the creator when it finishes.
import Pledge.Assembly.Source
import Pledge.Campaign.Layout

namespace Pledge.Campaign

def emit (draft : Draft) : Statement := { action := .emit draft }

def place (label : String) : Statement := { action := .place label }

/-- Where refunds begin. -/
def refundDonors : String := "refund_donors"

/-- Where the next transaction is looked for. -/
def txLoop : String := "txn_loop"

/-- Where a transaction was found. -/
def refundTx : String := "refund_txn"

/-- Where a transaction is known to lie within the window. -/
def checkKind : String := "check_type"

def script (l : Layout) : Source := [
  emit (.callInto .creationTimestamp l.cursor .none),
  emit (.callInto .blockTimestamp l.deadline .none),
  emit (.callInto .addMinutes l.deadline (.two l.deadline l.windowMinutes)),
  emit (.copy l.wakeHeight l.deadline),
  emit (.immediate .shr l.wakeHeight 32),
  emit (.sleepUntil l.wakeHeight),
  -- The window has closed.
  emit (.callInto .currentBalance l.finalBalance .none),
  emit (.branch .lt l.finalBalance l.goalAmount (.label refundDonors)),
  emit (.callValue (.loadRegister .b) (Int64.ofNat l.awardee.toNat)),
  emit (.call .payAll .none),
  emit .finish,
  place refundDonors,
  emit .setRestart,
  place txLoop,
  emit (.call .findTxAfter (.one l.cursor)),
  emit (.callInto (.isZero .a) l.exhausted .none),
  emit (.branchZero l.exhausted (.label refundTx)),
  emit .finish,
  place refundTx,
  emit (.callInto .txTimestamp l.cursor .none),
  -- A transaction of the closing block or later is not refunded.
  emit (.branch .lt l.cursor l.deadline (.label checkKind)),
  emit .finish,
  place checkKind,
  emit (.callInto .txKind l.txKind .none),
  emit (.branch .ne l.txKind l.paymentKind (.label txLoop)),
  emit (.callInto .txAmount l.paymentAmount .none),
  emit (.call .txSender .none),
  emit (.call .pay (.one l.paymentAmount)),
  emit (.jump (.label txLoop))]

end Pledge.Campaign
