import FiduciaPayments.Lib.Text
import FiduciaPayments.Lib.Decimal
import FiduciaPayments.Lib.Hex
import FiduciaPayments.Lib.Wide
import FiduciaPayments.Lib.Utf8
import FiduciaPayments.Lib.Base64
import FiduciaPayments.Lib.Crc32
import FiduciaPayments.Lib.Gates
import FiduciaPayments.Stripe.Verify
import FiduciaPayments.Stripe.Decision
import FiduciaPayments.Stripe.Replay
import FiduciaPayments.Stripe.Binding
import FiduciaPayments.Stripe.Segments
import FiduciaPayments.Stripe.Delivery
import FiduciaPayments.Stripe.Spelling
import FiduciaPayments.Paypal.Decision
import FiduciaPayments.Paypal.Binding
import FiduciaPayments.Paypal.Fields
import FiduciaPayments.Paypal.Host
import FiduciaPayments.Paypal.Window
import FiduciaPayments.Authentication
import FiduciaPayments.Client
import FiduciaPayments.Dotenv.Agreement
import FiduciaPayments.Dotenv.Materialise
import FiduciaPayments.Dotenv.Recipes
import FiduciaPayments.Conformance
import FiduciaPayments.Dotenv.Sync
import FiduciaPayments.Dotenv.Listing
import FiduciaPayments.Dotenv.SecretName
import FiduciaPayments.Dotenv.Apply
import FiduciaPayments.ModelRuns
import FiduciaPayments.Dotenv.Damage
import FiduciaPayments.Dotenv.Keys
import FiduciaPayments.Texts
import FiduciaPayments.Instructions
import FiduciaPayments.Dotenv.Refusal
